import Mathlib.Data.Nat.Bitwise
import Mathlib.Data.UInt
import Mqx.Library.OnesComplement

/-!
# Internet checksums over the fragments of a packet

Model of `_mem_sum_ip` in `ipsum.c` and of `IP_Sum_immediate` and `IP_Sum_PCB` in `checksum.c`.
The sum over a packet whose fragments have any lengths is the one's complement sum over the bytes
of the packet in a row.
-/

namespace Mqx
namespace Rtcs
namespace Checksum

/-- The loop of `_mem_sum_ip` over `length` pairs of bytes. -/
def sumPairs (total : ℕ) (buf : ℕ → UInt8) : ℕ → ℕ
  | 0 => total
  | length + 1 =>
    let temp := (buf 0).toNat
    sumPairs ((total + (temp <<< 8 ||| (buf 1).toNat)) % 2 ^ 32) (fun i => buf (i + 2)) length

/-- `_mem_sum_ip`, with 32-bit sums. -/
def memSumIp (sum length : ℕ) (buf : ℕ → UInt8) : ℕ :=
  let last := length - 1
  let total :=
    if length % 2 = 1 then (sum + (buf last).toNat <<< 8) % 2 ^ 32 else sum
  let total := sumPairs total buf ((if length % 2 = 1 then last else length) >>> 1)
  let sum := (total >>> 16) % 2 ^ 16
  if sum ≠ 0 then
    let total := total % 2 ^ 16 + sum
    let sum := (total >>> 16) % 2 ^ 16
    if sum ≠ 0 then total % 2 ^ 16 + sum else total
  else total

/-- `IP_Sum_immediate`. -/
def ipSumImmediate (sum immediate : ℕ) : ℕ :=
  let total := sum % 2 ^ 16
  let total := total + immediate % 2 ^ 16
  let sum := (total >>> 16) % 2 ^ 16
  (total % 2 ^ 16 + sum) % 2 ^ 16

/-- An entry of the fragment table. -/
structure PcbFragment where
  length : ℕ
  fragment : ℕ → UInt8

/-- The bytes that `IP_Sum_PCB` sums up: those of the header and the entries `FRAG[1]` and up,
which an entry of length 0 ends. -/
structure RtcsPcb where
  headerFragUsed : ℕ
  data : ℕ → UInt8
  frag : List PcbFragment

/-- The loop of `IP_Sum_PCB`. -/
def sumFragments (sum isOdd : ℕ) : List PcbFragment → ℕ
  | [] => sum
  | frag :: rest =>
    if frag.length = 0 then sum
    else
      let sum := if isOdd ≠ 0 then ipSumImmediate sum ((frag.fragment 0).toNat % 256) else sum
      let sum :=
        memSumIp sum (frag.length - isOdd) (fun i => frag.fragment (i + isOdd)) % 2 ^ 16
      sumFragments sum ((frag.length - isOdd) % 2) rest

/-- `IP_Sum_PCB`. -/
def ipSumPcb (sum : ℕ) (pcb : RtcsPcb) : ℕ :=
  sumFragments (memSumIp sum pcb.headerFragUsed pcb.data % 2 ^ 16) (pcb.headerFragUsed % 2)
    pcb.frag

/-- The bytes of a piece of memory. -/
def bytesOf (length : ℕ) (buf : ℕ → UInt8) : List UInt8 := (List.range length).map buf

/-- The bytes of the entries before the one of length 0. -/
def fragmentBytes : List PcbFragment → List UInt8
  | [] => []
  | frag :: rest =>
    if frag.length = 0 then [] else bytesOf frag.length frag.fragment ++ fragmentBytes rest

/-- The bytes of a packet in a row. -/
def RtcsPcb.bytes (pcb : RtcsPcb) : List UInt8 :=
  bytesOf pcb.headerFragUsed pcb.data ++ fragmentBytes pcb.frag

/-- The words of a byte string, high bytes first, with a zero byte behind an odd length. -/
def words : List UInt8 → List ℕ
  | [] => []
  | [x] => [x.toNat * 256]
  | x :: y :: rest => (x.toNat * 256 + y.toNat) :: words rest

/-! ## Bytes and words -/

variable {n sum length total isOdd : ℕ} {buf : ℕ → UInt8} {l k : List UInt8}

/-- The ordinary sum of the words of a byte string. The bytes at places of the given parity are
the high ones. -/
def byteSum : Bool → List UInt8 → ℕ
  | _, [] => 0
  | odd, x :: rest => (if odd then x.toNat else x.toNat * 256) + byteSum (!odd) rest

theorem bytesOf_length : (bytesOf n buf).length = n := by simp [bytesOf]

theorem bytesOf_succ : bytesOf (n + 1) buf = buf 0 :: bytesOf n fun i => buf (i + 1) := by
  simp [bytesOf, List.range_succ_eq_map]

theorem bytesOf_succ_last : bytesOf (n + 1) buf = bytesOf n buf ++ [buf n] := by
  simp [bytesOf, List.range_succ]

theorem byteSum_append (odd : Bool) :
    byteSum odd (l ++ k) = byteSum odd l + byteSum (odd ^^ decide (l.length % 2 = 1)) k := by
  induction l generalizing odd with
  | nil => simp [byteSum]
  | cons x l ih =>
    have hflip : (!odd ^^ decide (l.length % 2 = 1)) =
        (odd ^^ decide ((x :: l).length % 2 = 1)) := by
      rcases Nat.mod_two_eq_zero_or_one l.length with h | h <;> cases odd <;>
        simp [List.length_cons, Nat.add_mod, h]
    rw [List.cons_append, byteSum, byteSum, ih, hflip, Nat.add_assoc]

theorem words_sum : (words l).sum = byteSum false l := by
  fun_induction words l with
  | case1 => rfl
  | case2 x => simp [byteSum]
  | case3 x y rest ih => simp [byteSum, ih, Nat.add_assoc]

theorem words_lt : ∀ x ∈ words l, x < 2 ^ 16 := by
  fun_induction words l with
  | case1 => simp
  | case2 x =>
    have := x.toNat_lt
    simp only [List.mem_singleton]
    omega
  | case3 x y rest ih =>
    have hx := x.toNat_lt
    have hy := y.toNat_lt
    intro v hv
    rcases List.mem_cons.mp hv with rfl | hv
    · omega
    · exact ih v hv

theorem byteSum_eq_zero (odd : Bool) (h : byteSum odd l = 0) : ∀ b ∈ l, b = 0 := by
  induction l generalizing odd with
  | nil => simp
  | cons x l ih =>
    rw [byteSum, Nat.add_eq_zero_iff] at h
    have hx : x.toNat = 0 := by
      cases odd <;> simp at h <;> simp [h]
    intro b hb
    rcases List.mem_cons.mp hb with rfl | hb
    · exact UInt8.toNat_inj.mp hx
    · exact ih (!odd) h.2 b hb

theorem byteSum_le (odd : Bool) : byteSum odd l ≤ 65280 * l.length := by
  induction l generalizing odd with
  | nil => simp [byteSum]
  | cons x l ih =>
    have hx := x.toNat_lt
    have hl := ih (!odd)
    have hhigh : (if odd then x.toNat else x.toNat * 256) ≤ 65280 := by
      split_ifs <;> omega
    rw [byteSum, List.length_cons]
    omega

/-! ## The sum over one piece of memory -/

theorem sumPairs_eq (h : total + byteSum false (bytesOf (2 * n) buf) < 2 ^ 32) :
    sumPairs total buf n = total + byteSum false (bytesOf (2 * n) buf) := by
  induction n generalizing total buf with
  | zero => rfl
  | succ n ih =>
    have hlow := (buf 1).toNat_lt
    have hword : (buf 0).toNat <<< 8 ||| (buf 1).toNat = (buf 0).toNat * 256 + (buf 1).toNat := by
      rw [← Nat.shiftLeft_add_eq_or_of_lt (by omega), Nat.shiftLeft_eq]
    have hbytes : byteSum false (bytesOf (2 * (n + 1)) buf) =
        (buf 0).toNat * 256 + ((buf 1).toNat +
          byteSum false (bytesOf (2 * n) fun i => buf (i + 2))) := by
      rw [show 2 * (n + 1) = 2 * n + 1 + 1 by omega, bytesOf_succ, bytesOf_succ]
      rfl
    rw [hbytes] at h ⊢
    have hmod : (total + ((buf 0).toNat * 256 + (buf 1).toNat)) % 2 ^ 32 =
        total + ((buf 0).toNat * 256 + (buf 1).toNat) := Nat.mod_eq_of_lt (by omega)
    rw [sumPairs, hword, hmod, ih (by omega)]
    omega

/-- Two folds bring a sum of 32 bits into a word. -/
theorem fold_eq (h : total < 2 ^ 32) :
    (if (total >>> 16) % 2 ^ 16 ≠ 0 then
      if ((total % 2 ^ 16 + (total >>> 16) % 2 ^ 16) >>> 16) % 2 ^ 16 ≠ 0 then
        (total % 2 ^ 16 + (total >>> 16) % 2 ^ 16) % 2 ^ 16 +
          ((total % 2 ^ 16 + (total >>> 16) % 2 ^ 16) >>> 16) % 2 ^ 16
      else total % 2 ^ 16 + (total >>> 16) % 2 ^ 16
    else total) = wordOf (2 ^ 16 - 1) total := by
  have hfold := wordOf_fold 16 total
  have hhigh : (total >>> 16) % 2 ^ 16 = total / 2 ^ 16 := by
    rw [Nat.shiftRight_eq_div_pow]
    exact Nat.mod_eq_of_lt (by omega)
  rw [hhigh]
  generalize ht : total % 2 ^ 16 + total / 2 ^ 16 = t at hfold ⊢
  have hagain := wordOf_fold 16 t
  have hhigh' : (t >>> 16) % 2 ^ 16 = t / 2 ^ 16 := by
    rw [Nat.shiftRight_eq_div_pow]
    exact Nat.mod_eq_of_lt (by omega)
  rw [hhigh', ← hfold]
  split_ifs with h1 h2
  · rw [← hagain, wordOf_of_le (by omega)]
  · rw [wordOf_of_le (by omega)]
  · rw [wordOf_of_le (by omega)]
    omega

theorem memSumIp_eq (hsum : sum < 2 ^ 16) (hlength : length ≤ 65535) :
    memSumIp sum length buf = wordOf (2 ^ 16 - 1) (sum + byteSum false (bytesOf length buf)) := by
  have hle := @byteSum_le (bytesOf length buf) false
  rw [bytesOf_length] at hle
  have htotal : sumPairs (if length % 2 = 1 then (sum + (buf (length - 1)).toNat <<< 8) % 2 ^ 32
      else sum) buf ((if length % 2 = 1 then length - 1 else length) >>> 1) =
      sum + byteSum false (bytesOf length buf) := by
    rw [Nat.shiftRight_eq_div_pow, Nat.pow_one]
    split_ifs with hodd
    · have hlast : byteSum false (bytesOf length buf) =
          byteSum false (bytesOf (2 * ((length - 1) / 2)) buf) + (buf (length - 1)).toNat * 256 := by
        have hlen : length = length - 1 + 1 := by omega
        have heven : 2 * ((length - 1) / 2) = length - 1 := by omega
        have hnot : (length - 1) % 2 ≠ 1 := by omega
        rw [heven]
        conv_lhs => rw [hlen, bytesOf_succ_last, byteSum_append, bytesOf_length]
        simp [byteSum, hnot]
      rw [hlast] at hle ⊢
      have hmod : (sum + (buf (length - 1)).toNat <<< 8) % 2 ^ 32 =
          sum + (buf (length - 1)).toNat * 256 := by
        rw [Nat.shiftLeft_eq]
        exact Nat.mod_eq_of_lt (by omega)
      rw [hmod, sumPairs_eq (by omega)]
      omega
    · have heven : 2 * (length / 2) = length := by omega
      rw [sumPairs_eq (by rw [heven]; omega), heven]
  rw [← fold_eq (by omega), ← htotal]
  rfl

/-! ## The sum over the fragments -/

theorem ipSumImmediate_eq {immediate : ℕ} (hsum : sum < 2 ^ 16) (himm : immediate < 2 ^ 16) :
    ipSumImmediate sum immediate = wordOf (2 ^ 16 - 1) (sum + immediate) := by
  have hle := endAround_le hsum himm
  have hhigh : ((sum + immediate) >>> 16) % 2 ^ 16 = (sum + immediate) / 2 ^ 16 := by
    rw [Nat.shiftRight_eq_div_pow]
    exact Nat.mod_eq_of_lt (by omega)
  rw [← endAround_eq hsum himm]
  rw [endAround] at hle ⊢
  simp only [ipSumImmediate, Nat.mod_eq_of_lt hsum, Nat.mod_eq_of_lt himm, hhigh]
  exact Nat.mod_eq_of_lt (by omega)

theorem wordOf_lt : wordOf (2 ^ 16 - 1) n < 2 ^ 16 := by
  have := wordOf_le (show 0 < 2 ^ 16 - 1 by omega) n
  omega

/-- One fragment: the byte that the fragment before left open, then the pairs. -/
theorem fragment_eq {frag : PcbFragment} (hsum : sum < 2 ^ 16) (hodd : isOdd < 2)
    (hpos : frag.length ≠ 0) (hlength : frag.length ≤ 65535) :
    memSumIp (if isOdd ≠ 0 then ipSumImmediate sum ((frag.fragment 0).toNat % 256) else sum)
        (frag.length - isOdd) (fun i => frag.fragment (i + isOdd)) % 2 ^ 16 =
      wordOf (2 ^ 16 - 1)
        (sum + byteSum (decide (isOdd = 1)) (bytesOf frag.length frag.fragment)) := by
  have hbyte := (frag.fragment 0).toNat_lt
  rcases (show isOdd = 0 ∨ isOdd = 1 by omega) with rfl | rfl
  · rw [if_neg (by decide), memSumIp_eq hsum (by omega), Nat.mod_eq_of_lt wordOf_lt]
    rfl
  · have hbytes : byteSum true (bytesOf frag.length frag.fragment) = (frag.fragment 0).toNat +
        byteSum false (bytesOf (frag.length - 1) fun i => frag.fragment (i + 1)) := by
      conv_lhs => rw [show frag.length = frag.length - 1 + 1 by omega, bytesOf_succ]
      rfl
    have hlow : (frag.fragment 0).toNat % 256 = (frag.fragment 0).toNat :=
      Nat.mod_eq_of_lt (by omega)
    rw [if_pos (by decide), hlow, ipSumImmediate_eq hsum (by omega),
      memSumIp_eq wordOf_lt (by omega), Nat.mod_eq_of_lt wordOf_lt, wordOf_wordOf_add,
      Nat.add_assoc, ← hbytes]
    rfl

theorem sumFragments_eq {frags : List PcbFragment} (hsum : sum < 2 ^ 16) (hodd : isOdd < 2)
    (hlength : (fragmentBytes frags).length ≤ 65535) :
    sumFragments sum isOdd frags =
      wordOf (2 ^ 16 - 1) (sum + byteSum (decide (isOdd = 1)) (fragmentBytes frags)) := by
  induction frags generalizing sum isOdd with
  | nil =>
    rw [fragmentBytes, byteSum, Nat.add_zero, wordOf_of_le (by omega)]
    rfl
  | cons frag rest ih =>
    rw [sumFragments, fragmentBytes]
    rw [fragmentBytes] at hlength
    by_cases hzero : frag.length = 0
    · rw [if_pos hzero, if_pos hzero, byteSum, Nat.add_zero, wordOf_of_le (by omega)]
    · rw [if_neg hzero, List.length_append, bytesOf_length] at hlength
      rw [if_neg hzero, if_neg hzero]
      have hparity : decide ((frag.length - isOdd) % 2 = 1) =
          (decide (isOdd = 1) ^^ decide (frag.length % 2 = 1)) := by
        rcases (show isOdd = 0 ∨ isOdd = 1 by omega) with rfl | rfl
        · simp
        · rcases Nat.mod_two_eq_zero_or_one frag.length with h | h
          · simp [h, show (frag.length - 1) % 2 = 1 by omega]
          · simp [h, show (frag.length - 1) % 2 = 0 by omega]
      simp only [fragment_eq hsum hodd hzero (by omega : frag.length ≤ 65535)]
      rw [ih wordOf_lt (Nat.mod_lt _ Nat.two_pos) (by omega), wordOf_wordOf_add, byteSum_append,
        bytesOf_length, hparity, Nat.add_assoc]

theorem ipSumPcb_eq {pcb : RtcsPcb} (hsum : sum < 2 ^ 16) (hlength : pcb.bytes.length ≤ 65535) :
    ipSumPcb sum pcb = wordOf (2 ^ 16 - 1) (sum + byteSum false pcb.bytes) := by
  rw [RtcsPcb.bytes, List.length_append, bytesOf_length] at hlength
  rw [ipSumPcb, memSumIp_eq hsum (by omega), Nat.mod_eq_of_lt wordOf_lt,
    sumFragments_eq wordOf_lt (Nat.mod_lt _ Nat.two_pos) (by omega), wordOf_wordOf_add,
    RtcsPcb.bytes, byteSum_append, bytesOf_length, Bool.false_xor, Nat.add_assoc]

/-- The checksum over the fragments of a packet is the one's complement sum over its bytes in a
row, and it is zero only for zeros. -/
theorem fragmented_checksum (sum : ℕ) (hsum : sum < 2 ^ 16) (pcb : RtcsPcb)
    (hlength : pcb.bytes.length ≤ 65535) :
    ipSumPcb sum pcb = onesSum 16 sum (words pcb.bytes) ∧
      (ipSumPcb sum pcb = 0 → sum = 0 ∧ ∀ b ∈ pcb.bytes, b = 0) := by
  have hsumPcb := ipSumPcb_eq hsum hlength
  constructor
  · rw [hsumPcb, onesSum_eq hsum words_lt, words_sum]
  · intro hzero
    rw [hsumPcb, wordOf_eq_zero, Nat.add_eq_zero_iff] at hzero
    exact ⟨hzero.1, byteSum_eq_zero false hzero.2⟩

/-- Three fragments of odd lengths. -/
theorem fragmented_checksum_odd :
    ipSumPcb 0xFFFF ⟨1, fun _ => 0x12, [⟨1, fun _ => 0x34⟩, ⟨3, fun _ => 0xFF⟩]⟩ =
      onesSum 16 0xFFFF [0x1234, 0xFFFF, 0xFF00] :=
  (fragmented_checksum 0xFFFF (by decide)
    ⟨1, fun _ => 0x12, [⟨1, fun _ => 0x34⟩, ⟨3, fun _ => 0xFF⟩]⟩ (by decide)).1

end Checksum
end Rtcs
end Mqx
