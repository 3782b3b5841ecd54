import Mathlib.Algebra.BigOperators.Intervals
import Mathlib.Data.UInt
import Mathlib.Tactic.Common
import Mathlib.Tactic.IntervalCases
import Mqx.Library.Buffer

/-!
# Base64

Model of `rtcs_base64.c`. A string is the list of its characters before the NUL. Characters are
unsigned. The destination of the decoder is a memory with the indexes at which it stored.
-/

namespace Mqx
namespace Rtcs
namespace Base64

/-- The decoding alphabet from character 43 to 122; `0x23` stands where no digit is. -/
def decodeBase64 : List UInt8 :=
  [110, 35, 35, 35, 111, 100, 101, 102, 103, 104, 105, 106, 107, 108, 109, 35,
    35, 35, 35, 35, 35, 35, 48, 49, 50, 51, 52, 53, 54, 55, 56, 57,
    58, 59, 60, 61, 62, 63, 64, 65, 66, 67, 68, 69, 70, 71, 72, 73,
    35, 35, 35, 35, 35, 35, 74, 75, 76, 77, 78, 79, 80, 81, 82, 83,
    84, 85, 86, 87, 88, 89, 90, 91, 92, 93, 94, 95, 96, 97, 98, 99]

/-- `DECODE_BASE64_IDX`. -/
def decodeBase64Idx (ch : UInt8) : UInt8 := decodeBase64.getD (ch.toNat - 43) 0 - 48

/-- The encoding alphabet. -/
def cb64 : List UInt8 :=
  [65, 66, 67, 68, 69, 70, 71, 72, 73, 74, 75, 76, 77, 78, 79, 80,
    81, 82, 83, 84, 85, 86, 87, 88, 89, 90, 97, 98, 99, 100, 101, 102,
    103, 104, 105, 106, 107, 108, 109, 110, 111, 112, 113, 114, 115, 116, 117, 118,
    119, 120, 121, 122, 48, 49, 50, 51, 52, 53, 54, 55, 56, 57, 43, 47]

/-- The character `=`. -/
def pad : UInt8 := 61

/-! ## Encoding -/

/-- The character of a digit. -/
def charOf (digit : UInt8) : UInt8 := cb64.getD digit.toNat 0

/-- `base64_encodeblock`. -/
def encodeBlock (in0 in1 in2 : UInt8) (len : ℕ) : List UInt8 :=
  [charOf (in0 >>> 2), charOf (((in0 &&& 0x03) <<< 4) ||| ((in1 &&& 0xf0) >>> 4)),
    if len > 1 then charOf (((in1 &&& 0x0f) <<< 2) ||| ((in2 &&& 0xc0) >>> 6)) else pad,
    if len > 2 then charOf (in2 &&& 0x3f) else pad]

/-- The input of one turn of `base64_encode`: the bytes, how many of them are of the source, and
the source behind them. -/
def readBytes : ℕ → List UInt8 → List UInt8 × ℕ × List UInt8
  | 0, source => ([], 0, source)
  | i + 1, [] =>
    let (bytes, len, rest) := readBytes i []
    (0 :: bytes, len, rest)
  | i + 1, ch :: source =>
    let (bytes, len, rest) := readBytes i source
    (ch :: bytes, len + 1, rest)

theorem readBytes_rest_le (i : ℕ) (source : List UInt8) :
    (readBytes i source).2.2.length ≤ source.length := by
  fun_induction readBytes i source with
  | case1 => exact Nat.le_refl _
  | case2 i bytes len rest hread ih =>
    rw [hread] at ih
    exact ih
  | case3 i ch source bytes len rest hread ih =>
    rw [hread] at ih
    exact Nat.le_succ_of_le ih

/-- `base64_encode`. -/
def base64Encode : List UInt8 → List UInt8
  | [] => []
  | ch :: source =>
    let turn := readBytes 3 (ch :: source)
    let bytes := turn.1
    encodeBlock (bytes.getD 0 0) (bytes.getD 1 0) (bytes.getD 2 0) turn.2.1 ++
      base64Encode turn.2.2
termination_by source => source.length
decreasing_by exact Nat.lt_succ_of_le (readBytes_rest_le 2 source)

/-! ## Decoding -/

/-- A memory and the indexes at which it was stored to, the last one first. -/
structure Memory where
  byte : ℕ → UInt8
  stored : List ℕ

/-- A store. -/
def Memory.store (m : Memory) (i : ℕ) (v : UInt8) : Memory where
  byte := Function.update m.byte i v
  stored := i :: m.stored

/-- The characters that the decoder takes for digits. -/
def isDigit (ch : UInt8) : Bool := !(ch < 43 || ch > 122) && ch != pad

/-- The input of one turn of `base64_decode`: the digits, how many of the characters are digits,
and the source behind them. -/
def readDigits : ℕ → List UInt8 → List UInt8 × ℕ × List UInt8
  | 0, src => ([], 0, src)
  | i + 1, [] =>
    let (digits, len, rest) := readDigits i []
    (0 :: digits, len, rest)
  | i + 1, ch :: src =>
    let (digits, len, rest) := readDigits i src
    if isDigit ch then (decodeBase64Idx ch :: digits, len + 1, rest)
    else (0 :: digits, len, rest)

/-- `base64_decodeblock`, with the output at index `dst`. -/
def decodeBlock (m : Memory) (dst : ℕ) (in0 in1 in2 in3 : UInt8) : Memory :=
  let m := m.store dst (in0 <<< 2 ||| in1 >>> 4)
  let m := m.store (dst + 1) (in1 <<< 4 ||| in2 >>> 2)
  m.store (dst + 2) (((in2 <<< 6) &&& 0xc0) ||| in3)

theorem readDigits_rest_le (i : ℕ) (src : List UInt8) :
    (readDigits i src).2.2.length ≤ src.length := by
  fun_induction readDigits i src with
  | case1 => exact Nat.le_refl _
  | case2 i digits len rest hread ih =>
    rw [hread] at ih
    exact ih
  | case3 i ch src digits len rest hread hdigit ih =>
    rw [hread] at ih
    exact Nat.le_succ_of_le ih
  | case4 i ch src digits len rest hread hdigit ih =>
    rw [hread] at ih
    exact Nat.le_succ_of_le ih

/-- The loop of `base64_decode` at index `dst` of the memory. -/
def decodeLoop (m : Memory) (dst freeSize : ℕ) : List UInt8 → Memory
  | [] => m
  | ch :: src =>
    if freeSize = 0 then m
    else
      let turn := readDigits 4 (ch :: src)
      let digits := turn.1
      let len := turn.2.1
      if len > 1 ∧ freeSize > len - 1 then
        let m :=
          decodeBlock m dst (digits.getD 0 0) (digits.getD 1 0) (digits.getD 2 0)
            (digits.getD 3 0)
        decodeLoop (m.store (dst + (len - 1)) 0) (dst + (len - 1)) (freeSize - (len - 1)) turn.2.2
      else m
termination_by src => src.length
decreasing_by
  have hrest := readDigits_rest_le 3 src
  simp only [readDigits]
  split <;> exact Nat.lt_succ_of_le hrest

/-- `base64_decode` into a memory that nothing was stored to. -/
def base64Decode (dst : ℕ → UInt8) (src : List UInt8) (dstSize : ℕ) : Memory :=
  decodeLoop ⟨dst, []⟩ 0 dstSize src

/-! ## Digits -/

variable {m : Memory} {dst freeSize i j : ℕ} {v : UInt8} {src s l : List UInt8}

theorem digit_charOf {d : UInt8} (hd : d < 64) :
    isDigit (charOf d) ∧ decodeBase64Idx (charOf d) = d := by
  have h : ∀ n : Fin 64, isDigit (charOf (UInt8.ofNat n)) ∧
      decodeBase64Idx (charOf (UInt8.ofNat n)) = UInt8.ofNat n := by decide
  simpa using h ⟨d.toNat, hd⟩

theorem lt_of_and {d : UInt8} (h : d &&& 63 = d) : d < 64 := by
  rw [← h, UInt8.lt_iff_toNat_lt, UInt8.toNat_and]
  exact Nat.lt_succ_of_le Nat.and_le_right

/-- The four digits of a block are digits. -/
theorem digits_lt (a b c : UInt8) :
    a >>> 2 < 64 ∧ ((a &&& 0x03) <<< 4 ||| (b &&& 0xf0) >>> 4) < 64 ∧
      ((b &&& 0x0f) <<< 2 ||| (c &&& 0xc0) >>> 6) < 64 ∧ c &&& 0x3f < 64 := by
  refine ⟨lt_of_and ?_, lt_of_and ?_, lt_of_and ?_, lt_of_and ?_⟩ <;>
    apply UInt8.toBitVec_inj.mp <;> ext i hi <;>
    interval_cases i <;> simp [BitVec.getLsbD_of_ge]

theorem first_byte (a b : UInt8) :
    (a >>> 2) <<< 2 ||| ((a &&& 0x03) <<< 4 ||| (b &&& 0xf0) >>> 4) >>> 4 = a := by
  apply UInt8.toBitVec_inj.mp
  ext i hi
  interval_cases i <;> simp [BitVec.getLsbD_of_ge]

theorem second_byte (a b c : UInt8) :
    ((a &&& 0x03) <<< 4 ||| (b &&& 0xf0) >>> 4) <<< 4 |||
      ((b &&& 0x0f) <<< 2 ||| (c &&& 0xc0) >>> 6) >>> 2 = b := by
  apply UInt8.toBitVec_inj.mp
  ext i hi
  interval_cases i <;> simp

theorem third_byte (b c : UInt8) :
    ((((b &&& 0x0f) <<< 2 ||| (c &&& 0xc0) >>> 6) <<< 6) &&& 0xc0) ||| (c &&& 0x3f) = c := by
  apply UInt8.toBitVec_inj.mp
  ext i hi
  interval_cases i <;> simp

/-! ## Reading and storing -/

@[simp] theorem Memory.store_same : (m.store i v).byte i = v := by simp [Memory.store]

theorem Memory.store_of_ne (h : j ≠ i) : (m.store i v).byte j = m.byte j := by
  simp [Memory.store, h]

@[simp] theorem Memory.store_stored : (m.store i v).stored = i :: m.stored := rfl

theorem base64Encode_one (a : UInt8) : base64Encode [a] = encodeBlock a 0 0 1 := by
  rw [base64Encode]
  simp [readBytes, base64Encode]

theorem base64Encode_two (a b : UInt8) : base64Encode [a, b] = encodeBlock a b 0 2 := by
  rw [base64Encode]
  simp [readBytes, base64Encode]

theorem base64Encode_three (a b c : UInt8) (s : List UInt8) :
    base64Encode (a :: b :: c :: s) = encodeBlock a b c 3 ++ base64Encode s := by
  rw [base64Encode]
  simp [readBytes]

/-- One turn of the decoder. -/
theorem decodeLoop_turn {ch : UInt8} (hfree : freeSize ≠ 0) {digits rest : List UInt8} {len : ℕ}
    (hread : readDigits 4 (ch :: src) = (digits, len, rest))
    (hrun : len > 1 ∧ freeSize > len - 1) :
    decodeLoop m dst freeSize (ch :: src) =
      decodeLoop ((decodeBlock m dst (digits.getD 0 0) (digits.getD 1 0) (digits.getD 2 0)
        (digits.getD 3 0)).store (dst + (len - 1)) 0) (dst + (len - 1)) (freeSize - (len - 1))
        rest := by
  rw [decodeLoop, if_neg hfree]
  simp only [hread]
  rw [if_pos hrun]

theorem isDigit_pad : isDigit pad = false := by decide

/-- The blocks of the encoder, with the characters of the rest behind them. -/
theorem readDigits_block (a b c : UInt8) (l : List UInt8) :
    readDigits 4 (encodeBlock a b c 3 ++ l) =
        ([a >>> 2, (a &&& 0x03) <<< 4 ||| (b &&& 0xf0) >>> 4,
          (b &&& 0x0f) <<< 2 ||| (c &&& 0xc0) >>> 6, c &&& 0x3f], 4, l) ∧
      readDigits 4 (encodeBlock a b c 2 ++ l) =
        ([a >>> 2, (a &&& 0x03) <<< 4 ||| (b &&& 0xf0) >>> 4,
          (b &&& 0x0f) <<< 2 ||| (c &&& 0xc0) >>> 6, 0], 3, l) ∧
      readDigits 4 (encodeBlock a b c 1 ++ l) =
        ([a >>> 2, (a &&& 0x03) <<< 4 ||| (b &&& 0xf0) >>> 4, 0, 0], 2, l) := by
  obtain ⟨h0, h1, h2, h3⟩ := digits_lt a b c
  simp [encodeBlock, readDigits, digit_charOf h0, digit_charOf h1, digit_charOf h2,
    digit_charOf h3, isDigit_pad]

theorem decodeBlock_byte (x y z w : UInt8) :
    (decodeBlock m dst x y z w).byte dst = x <<< 2 ||| y >>> 4 ∧
      (decodeBlock m dst x y z w).byte (dst + 1) = y <<< 4 ||| z >>> 2 ∧
      (decodeBlock m dst x y z w).byte (dst + 2) = ((z <<< 6) &&& 0xc0) ||| w := by
  simp [decodeBlock, Memory.store]

theorem decodeBlock_before (x y z w : UInt8) (hi : i < dst) :
    (decodeBlock m dst x y z w).byte i = m.byte i := by
  rw [decodeBlock, Memory.store_of_ne (by omega), Memory.store_of_ne (by omega),
    Memory.store_of_ne (by omega)]

/-- One turn over a block that the encoder wrote, for each number of bytes in it. -/
theorem decodeLoop_block (a b c : UInt8) (hfree : 3 < freeSize) (l : List UInt8) :
    ∃ m' : Memory, (∀ i < dst, m'.byte i = m.byte i) ∧ HoldsAt m'.byte dst [a, b, c, 0] ∧
      decodeLoop m dst freeSize (encodeBlock a b c 3 ++ l) =
        decodeLoop m' (dst + 3) (freeSize - 3) l := by
  obtain ⟨hthree, -, -⟩ := readDigits_block a b c l
  have hturn := @decodeLoop_turn m dst freeSize _ _ (by omega) _ _ _ hthree ⟨by omega, by omega⟩
  refine ⟨_, ?_, ?_, hturn⟩
  · intro i hi
    rw [Memory.store_of_ne (by omega)]
    exact decodeBlock_before _ _ _ _ hi
  · obtain ⟨h0, h1, h2⟩ := @decodeBlock_byte m dst (a >>> 2)
      ((a &&& 0x03) <<< 4 ||| (b &&& 0xf0) >>> 4) ((b &&& 0x0f) <<< 2 ||| (c &&& 0xc0) >>> 6)
      (c &&& 0x3f)
    rw [first_byte] at h0
    rw [second_byte] at h1
    rw [third_byte] at h2
    refine ⟨?_, ?_, ?_, Memory.store_same, trivial⟩
    · rw [Memory.store_of_ne (by omega)]
      exact h0
    · rw [Memory.store_of_ne (by omega)]
      exact h1
    · rw [Memory.store_of_ne (by omega)]
      exact h2

theorem decodeLoop_last_two (a b : UInt8) (hfree : 2 < freeSize) :
    ∃ m' : Memory, (∀ i < dst, m'.byte i = m.byte i) ∧ HoldsAt m'.byte dst [a, b, 0] ∧
      decodeLoop m dst freeSize (encodeBlock a b 0 2) = m' := by
  obtain ⟨-, htwo, -⟩ := readDigits_block a b 0 []
  rw [List.append_nil] at htwo
  have hturn := @decodeLoop_turn m dst freeSize _ _ (by omega) _ _ _ htwo ⟨by omega, by omega⟩
  rw [decodeLoop] at hturn
  refine ⟨_, ?_, ?_, hturn⟩
  · intro i hi
    rw [Memory.store_of_ne (by omega)]
    exact decodeBlock_before _ _ _ _ hi
  · obtain ⟨h0, h1, -⟩ := @decodeBlock_byte m dst (a >>> 2)
      ((a &&& 0x03) <<< 4 ||| (b &&& 0xf0) >>> 4) ((b &&& 0x0f) <<< 2 ||| ((0 : UInt8) &&& 0xc0) >>> 6) 0
    rw [first_byte] at h0
    rw [second_byte] at h1
    refine ⟨?_, ?_, Memory.store_same, trivial⟩
    · rw [Memory.store_of_ne (by omega)]
      exact h0
    · rw [Memory.store_of_ne (by omega)]
      exact h1

theorem decodeLoop_last_one (a : UInt8) (hfree : 1 < freeSize) :
    ∃ m' : Memory, (∀ i < dst, m'.byte i = m.byte i) ∧ HoldsAt m'.byte dst [a, 0] ∧
      decodeLoop m dst freeSize (encodeBlock a 0 0 1) = m' := by
  obtain ⟨-, -, hone⟩ := readDigits_block a 0 0 []
  rw [List.append_nil] at hone
  have hturn := @decodeLoop_turn m dst freeSize _ _ (by omega) _ _ _ hone ⟨by omega, by omega⟩
  rw [decodeLoop] at hturn
  refine ⟨_, ?_, ?_, hturn⟩
  · intro i hi
    rw [Memory.store_of_ne (by omega)]
    exact decodeBlock_before _ _ _ _ hi
  · obtain ⟨h0, -, -⟩ := @decodeBlock_byte m dst (a >>> 2)
      ((a &&& 0x03) <<< 4 ||| ((0 : UInt8) &&& 0xf0) >>> 4) 0 0
    rw [first_byte] at h0
    refine ⟨?_, Memory.store_same, trivial⟩
    rw [Memory.store_of_ne (by omega)]
    exact h0

/-- The decoder writes back what the encoder read, and a zero behind it. -/
theorem decodeLoop_encode (hs : s ≠ []) (hfree : s.length < freeSize) :
    (∀ i < dst, (decodeLoop m dst freeSize (base64Encode s)).byte i = m.byte i) ∧
      HoldsAt (decodeLoop m dst freeSize (base64Encode s)).byte dst (s ++ [0]) := by
  induction hn : s.length using Nat.strong_induction_on generalizing m dst freeSize s with
  | h n ih =>
    rcases s with _ | ⟨a, _ | ⟨b, _ | ⟨c, rest⟩⟩⟩
    · exact absurd rfl hs
    · obtain ⟨m', hbefore, hholds, hloop⟩ := @decodeLoop_last_one m dst freeSize a hfree
      rw [base64Encode_one, hloop]
      exact ⟨hbefore, hholds⟩
    · obtain ⟨m', hbefore, hholds, hloop⟩ := @decodeLoop_last_two m dst freeSize a b hfree
      rw [base64Encode_two, hloop]
      exact ⟨hbefore, hholds⟩
    · simp only [List.length_cons] at hfree hn
      obtain ⟨m', hbefore, hholds, hloop⟩ :=
        @decodeLoop_block m dst freeSize a b c (by omega) (base64Encode rest)
      rw [base64Encode_three, hloop]
      by_cases hrest : rest = []
      · rw [hrest, base64Encode, decodeLoop]
        exact ⟨hbefore, hholds⟩
      · obtain ⟨hold, hnew⟩ := @ih rest.length (by omega) m' (dst + 3) (freeSize - 3) rest hrest
          (by omega) rfl
        refine ⟨fun i hi => ?_, ?_⟩
        · rw [hold i (by omega), hbefore i hi]
        · obtain ⟨h0, h1, h2, -⟩ := hholds
          refine ⟨?_, ?_, ?_, hnew⟩
          · rw [hold dst (by omega), h0]
          · rw [hold (dst + 1) (by omega), h1]
          · rw [hold (dst + 1 + 1) (by omega), h2]

/-! ## Stores -/

/-- The number of digits in the `j`th four characters of a string. -/
def digitsAt (src : List UInt8) (j : ℕ) : ℕ := ((src.drop (4 * j)).take 4).countP isDigit

/-- Some four characters have two digits, all before them have at least two, and the bytes that
those decode to leave exactly two of the destination. -/
def TwoLeft (src : List UInt8) (dstSize : ℕ) : Prop :=
  ∃ j, digitsAt src j = 2 ∧ (∀ i < j, 2 ≤ digitsAt src i) ∧
    ∑ i ∈ Finset.range j, (digitsAt src i - 1) + 2 = dstSize

theorem digitsAt_drop (src : List UInt8) (j : ℕ) :
    digitsAt (src.drop 4) j = digitsAt src (j + 1) := by
  rw [digitsAt, digitsAt, List.drop_drop]
  congr 3
  omega

theorem readDigits_len (i : ℕ) (src : List UInt8) :
    (readDigits i src).2.1 = (src.take i).countP isDigit := by
  fun_induction readDigits i src with
  | case1 => simp
  | case2 i digits len rest hread ih => simpa [hread] using ih
  | case3 i ch src digits len rest hread hdigit ih =>
    rw [hread] at ih
    simp [hdigit, ← ih]
  | case4 i ch src digits len rest hread hdigit ih =>
    rw [hread] at ih
    simp [hdigit, ← ih]

theorem readDigits_rest (i : ℕ) (src : List UInt8) : (readDigits i src).2.2 = src.drop i := by
  fun_induction readDigits i src with
  | case1 => simp
  | case2 i digits len rest hread ih => simpa [hread] using ih
  | case3 i ch src digits len rest hread hdigit ih => simpa [hread] using ih
  | case4 i ch src digits len rest hread hdigit ih => simpa [hread] using ih

theorem not_twoLeft_nil : ¬ TwoLeft [] dst := by
  rintro ⟨j, hj, -⟩
  simp [digitsAt] at hj

theorem not_twoLeft_lt (h : dst < 2) : ¬ TwoLeft src dst := by
  rintro ⟨j, -, -, hsum⟩
  omega

/-- The first four characters are the ones in question, or they have at least two digits and
their bytes are taken off the destination. -/
theorem twoLeft_iff {dstSize : ℕ} :
    TwoLeft src dstSize ↔ digitsAt src 0 = 2 ∧ dstSize = 2 ∨
      2 ≤ digitsAt src 0 ∧ ∃ freeSize, dstSize = digitsAt src 0 - 1 + freeSize ∧
        TwoLeft (src.drop 4) freeSize := by
  constructor
  · rintro ⟨j, hj, hbefore, hsum⟩
    rcases j with _ | j
    · left
      rw [Finset.sum_range_zero] at hsum
      exact ⟨hj, by omega⟩
    · right
      rw [Finset.sum_range_succ'] at hsum
      refine ⟨hbefore 0 (by omega), _, ?_, j, ?_, ?_, rfl⟩
      · simp only [digitsAt_drop]
        omega
      · rw [digitsAt_drop, hj]
      · intro i hi
        rw [digitsAt_drop]
        exact hbefore (i + 1) (by omega)
  · rintro (⟨hdigits, rfl⟩ | ⟨hdigits, freeSize, rfl, j, hj, hbefore, hsum⟩)
    · exact ⟨0, hdigits, by simp, by simp⟩
    · simp only [digitsAt_drop] at hj hbefore hsum
      refine ⟨j + 1, hj, ?_, ?_⟩
      · intro i hi
        rcases i with _ | i
        · exact hdigits
        · exact hbefore i (by omega)
      · rw [Finset.sum_range_succ']
        omega

/-- The stores of the decoder stay inside the destination unless it has two bytes left for a
block with two digits. -/
theorem decodeLoop_stored :
    (∀ k ∈ (decodeLoop m dst freeSize src).stored, k < dst + freeSize) ↔
      (∀ k ∈ m.stored, k < dst + freeSize) ∧ ¬ TwoLeft src freeSize := by
  fun_induction decodeLoop m dst freeSize src with
  | case1 m dst freeSize => simp [not_twoLeft_nil]
  | case2 m dst ch src => simp [not_twoLeft_lt]
  | case3 m dst freeSize ch src hfree turn digits len hrun m' ih =>
    have hfresh : ¬ (len = 2 ∧ freeSize = 2) →
        ((∀ k ∈ (dst + (len - 1)) :: (dst + 2) :: (dst + 1) :: dst :: m.stored,
          k < dst + freeSize) ↔ ∀ k ∈ m.stored, k < dst + freeSize) := by
      intro hlast
      simp only [List.forall_mem_cons]
      exact ⟨fun h => h.2.2.2.2, fun h => ⟨by omega, by omega, by omega, by omega, h⟩⟩
    have hlen : len = digitsAt (ch :: src) 0 := readDigits_len 4 (ch :: src)
    have hrest : turn.2.2 = (ch :: src).drop 4 := readDigits_rest 4 (ch :: src)
    have hstored : m'.stored = (dst + 2) :: (dst + 1) :: dst :: m.stored := rfl
    have htwo := @twoLeft_iff (ch :: src) freeSize
    have hsize : dst + (len - 1) + (freeSize - (len - 1)) = dst + freeSize := by omega
    rw [← hlen, ← hrest] at htwo
    rw [hsize] at ih
    rw [ih, Memory.store_stored, hstored, htwo]
    by_cases hlast : len = 2 ∧ freeSize = 2
    · constructor
      · rintro ⟨hall, -⟩
        have := hall (dst + 2) (by simp)
        omega
      · rintro ⟨-, hnot⟩
        exact absurd (Or.inl hlast) hnot
    · have hsub : TwoLeft turn.2.2 (freeSize - (len - 1)) ↔ ∃ f, freeSize = len - 1 + f ∧
          TwoLeft turn.2.2 f := by
        constructor
        · intro h
          exact ⟨freeSize - (len - 1), by omega, h⟩
        · rintro ⟨f, rfl, h⟩
          rwa [Nat.add_sub_cancel_left]
      rw [hfresh hlast, hsub]
      have hge : 2 ≤ len := hrun.1
      simp [hlast, hge]
  | case4 m dst freeSize ch src hfree turn len hrun =>
    have hlen : len = digitsAt (ch :: src) 0 := readDigits_len 4 (ch :: src)
    have hnot : ¬ TwoLeft (ch :: src) freeSize := by
      rw [twoLeft_iff, ← hlen]
      rintro (⟨h2, rfl⟩ | ⟨h2, f, rfl, hf⟩)
      · omega
      · by_cases hf2 : f < 2
        · exact not_twoLeft_lt hf2 hf
        · omega
    simp [hnot]

/-- The destination holds the string and a NUL behind it. -/
def Yields (m : Memory) (s : List UInt8) : Prop := HoldsAt m.byte 0 (s ++ [0])

/-- Decoding gives back what was encoded unless the string is empty and the destination does not
start with a NUL as it is, and the decoder stores behind the destination exactly when a block
with two digits meets two free bytes. -/
theorem base64_decode_exact (dst : ℕ → UInt8) (dstSize : ℕ) (s src : List UInt8) :
    (s.length < dstSize →
      (Yields (base64Decode dst (base64Encode s) dstSize) s ↔ s ≠ [] ∨ dst 0 = 0)) ∧
      ((∀ k ∈ (base64Decode dst src dstSize).stored, k < dstSize) ↔ ¬ TwoLeft src dstSize) := by
  constructor
  · intro hsize
    by_cases hs : s = []
    · subst hs
      rw [base64Decode, base64Encode, decodeLoop]
      simp [Yields, HoldsAt]
    · exact ⟨fun _ => Or.inl hs, fun _ => (decodeLoop_encode hs hsize).2⟩
  · have hstored := @decodeLoop_stored ⟨dst, []⟩ 0 dstSize src
    simpa [base64Decode] using hstored

/-- The string `a` in a destination of two bytes comes back. -/
theorem base64_decode_exact_a : Yields (base64Decode (fun _ => 0) (base64Encode [97]) 2) [97] :=
  ((base64_decode_exact (fun _ => 0) 2 [97] []).1 (by decide)).mpr (Or.inl (by decide))

/-- The encoded string `a` stores at index 2 of a destination of two bytes. -/
theorem base64_decode_overrun :
    ¬ ((∀ (dst : ℕ → UInt8) (dstSize : ℕ) (s : List UInt8), s.length < dstSize →
          Yields (base64Decode dst (base64Encode s) dstSize) s) ∧
        ∀ (dst : ℕ → UInt8) (dstSize : ℕ) (src : List UInt8),
          ∀ k ∈ (base64Decode dst src dstSize).stored, k < dstSize) := by
  rintro ⟨-, hstored⟩
  have hend := hstored (fun _ => 0) 2 [89, 81, 61, 61]
  simp [base64Decode, decodeLoop, readDigits, decodeBlock, isDigit, pad] at hend

end Base64
end Rtcs
end Mqx
