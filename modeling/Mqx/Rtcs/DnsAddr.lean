import Mathlib.Tactic.FinCases
import Mqx.Rtcs.DnsName
import Mqx.Rtcs.InetRoundTrip

/-!
# Names of addresses

Model of `DNS_is_dotted_IP_addr` and `DNS_insert_IP_query`, which write the name that stands for
an address in the other direction. `DNS_is_dotted_IP_addr` holds the digits of each number in a row
of `addr`; the row has as many as `number_chars` says, and there are as many rows behind the
current one as dots. A result of `none` stands for `RTCSERR_DNS_INVALID_IP_ADDR`.
-/

namespace Mqx
namespace Rtcs
namespace Dnsutil

open Inet (printU decimalDigit Decimal decimal_printU)

/-- `isdigit`. -/
def Isdigit (c : UInt8) : Prop :=
  48 ≤ c ∧ c ≤ 57

instance : DecidablePred Isdigit := fun c => inferInstanceAs (Decidable (48 ≤ c ∧ c ≤ 57))

/-- The first loop of `DNS_is_dotted_IP_addr` and the tests after it. -/
def scanAddr (addr : List (List UInt8)) (digits : List UInt8) (byte_num : ℕ) :
    List UInt8 → Option (List (List UInt8))
  | [] =>
    if digits = [] then none
    else if 255 < byte_num / 10 then none
    else if addr.length ≠ 3 then none
    else some (addr ++ [digits])
  | c :: name =>
    if c = dotChar then
      if 3 < addr.length + 1 then none
      else if digits = [] then none
      else if 255 < byte_num / 10 then none
      else scanAddr (addr ++ [digits]) [] (byte_num / 10) name
    else if 3 < digits.length + 1 then none
    else if Isdigit c then
      scanAddr addr (digits ++ [c]) (((if digits = [] then 0 else byte_num) + c.toNat - 48) * 10)
        name
    else none

/-- The loop over the digits of a number. The branch for `k == number_chars[j]` is left out, as
`k` is less there. -/
def digitLoop (k : ℕ) (leading_zero : Bool) : List UInt8 → List UInt8
  | [] => []
  | c :: digits =>
    if c = 48 ∧ k = 0 then digitLoop (k + 1) true digits
    else if c = 48 ∧ k = 1 ∧ leading_zero then digitLoop (k + 1) leading_zero digits
    else c :: digitLoop (k + 1) leading_zero digits

/-- A number behind its `number_chars`. -/
def encodeNumber (digits : List UInt8) : List UInt8 :=
  UInt8.ofNat digits.length :: digitLoop 0 false digits

/-- The two parts of `appended_name`. -/
def inAddr : List UInt8 := [105, 110, 45, 97, 100, 100, 114]
def arpa : List UInt8 := [97, 114, 112, 97]

/-- `DNS_is_dotted_IP_addr`: the bytes written from `fill_buffer_ptr` on. -/
def dnsIsDottedIpAddr (name : List UInt8) : Option (List UInt8) :=
  (scanAddr [] [] 0 name).map fun addr =>
    addr.reverse.flatMap encodeNumber ++ 7 :: inAddr ++ 4 :: arpa ++ [0]

/-- `DNS_insert_IP_query`. What `"%ld"` prints for an octet is what `"%u"` prints. -/
def dnsInsertIpQuery (name : Fin 4 → UInt8) : Option (List UInt8) :=
  dnsIsDottedIpAddr
    (printU (name 0).toNat ++ dotChar :: (printU (name 1).toNat ++
      dotChar :: (printU (name 2).toNat ++ dotChar :: printU (name 3).toNat)))

/-- The name that stands for an address. -/
def reverseName (name : Fin 4 → UInt8) : List (List UInt8) :=
  [printU (name 3).toNat, printU (name 2).toNat, printU (name 1).toNat, printU (name 0).toNat,
    inAddr, arpa]

section

variable {addr : List (List UInt8)} {digits g rest : List UInt8} {byte_num cur k v : ℕ} {c : UInt8}

/-! ## The text of an address -/

theorem isdigit_of_decimalDigit {d : ℕ} (h : decimalDigit c = some d) :
    Isdigit c ∧ c ≠ dotChar ∧ c.toNat = d + 48 := by
  rw [decimalDigit] at h
  split_ifs at h with hc
  rw [Option.some.injEq] at h
  have hle : 48 ≤ c.toNat := UInt8.le_iff_toNat_le.1 hc.1
  refine ⟨hc, fun heq => ?_, by omega⟩
  rw [heq] at hle
  exact absurd hle (by decide)

/-- A number of at most three digits is read to its end. -/
theorem scanAddr_digits (h : readNumeral 10 decimalDigit cur g = some v)
    (hcur : (if digits = [] then 0 else byte_num) = cur * 10)
    (hlen : digits.length + g.length ≤ 3) (hg : g ≠ []) :
    scanAddr addr digits byte_num (g ++ rest) = scanAddr addr (digits ++ g) (v * 10) rest := by
  induction g generalizing cur digits byte_num with
  | nil => exact absurd rfl hg
  | cons c g ih =>
    obtain ⟨d, hd, hrest⟩ := readNumeral_cons h
    obtain ⟨hdigit, hdot, hval⟩ := isdigit_of_decimalDigit hd
    rw [List.length_cons] at hlen
    rw [List.cons_append, scanAddr, if_neg hdot, if_neg (by omega), if_pos hdigit, hcur, hval,
      ← Nat.add_assoc, Nat.add_sub_cancel]
    by_cases hnil : g = []
    · subst hnil
      rw [readNumeral, Option.some.injEq] at hrest
      rw [List.nil_append, hrest]
    · rw [ih hrest (by simp) (by simp; omega) hnil, List.append_assoc, List.singleton_append]

theorem scanAddr_decimal (h : Decimal g v) :
    scanAddr addr [] byte_num (g ++ rest) = scanAddr addr g (v * 10) rest :=
  scanAddr_digits h.value (by simp) (by simpa using h.length_le) h.ne_nil

/-- A number with a dot behind it. -/
theorem scanAddr_dot (h : Decimal g v) (haddr : addr.length < 3) :
    scanAddr addr [] byte_num (g ++ dotChar :: rest) = scanAddr (addr ++ [g]) [] v rest := by
  have hle := h.le
  rw [scanAddr_decimal h, scanAddr, if_pos rfl, if_neg (by omega), if_neg h.ne_nil,
    Nat.mul_div_cancel _ (by decide), if_neg (by omega)]

theorem scanAddr_last (h : Decimal g v) (haddr : addr.length = 3) :
    scanAddr addr [] byte_num g = some (addr ++ [g]) := by
  have hle := h.le
  have hread := @scanAddr_decimal addr g [] byte_num v h
  rw [List.append_nil] at hread
  rw [hread, scanAddr, if_neg h.ne_nil, Nat.mul_div_cancel _ (by decide), if_neg (by omega),
    if_neg (not_not.2 haddr)]

theorem decimal_octet (x : UInt8) : Decimal (printU x.toNat) x.toNat :=
  decimal_printU (Nat.le_of_lt_succ x.toNat_lt)

/-- Every address is accepted. -/
theorem dnsInsertIpQuery_eq (name : Fin 4 → UInt8) :
    dnsInsertIpQuery name =
      some ([name 3, name 2, name 1, name 0].flatMap (fun o => encodeNumber (printU o.toNat)) ++
        (7 :: inAddr ++ 4 :: arpa ++ [0])) := by
  rw [dnsInsertIpQuery, dnsIsDottedIpAddr, scanAddr_dot (decimal_octet _) (by simp),
    scanAddr_dot (decimal_octet _) (by simp), scanAddr_dot (decimal_octet _) (by simp),
    scanAddr_last (decimal_octet _) (by simp)]
  simp

/-! ## Leading zeros -/

theorem digitLoop_length_le (k : ℕ) (leading_zero : Bool) (digits : List UInt8) :
    (digitLoop k leading_zero digits).length ≤ digits.length := by
  induction digits generalizing k leading_zero with
  | nil => exact le_rfl
  | cons c digits ih =>
    rw [digitLoop]
    split_ifs
    · exact Nat.le_succ_of_le (ih _ _)
    · exact Nat.le_succ_of_le (ih _ _)
    · exact Nat.succ_le_succ (ih _ _)

/-- Behind a first digit that is no zero all digits are written. -/
theorem digitLoop_eq (hk : 0 < k) (digits : List UInt8) : digitLoop k false digits = digits := by
  induction digits generalizing k with
  | nil => rfl
  | cons c digits ih =>
    rw [digitLoop, if_neg (by omega), if_neg (by simp), ih (Nat.succ_pos k)]

/-- A number that is not zero is written as a label. -/
theorem encodeNumber_of_ne_zero (h : Decimal g v) (hv : v ≠ 0) :
    encodeNumber g = UInt8.ofNat g.length :: g := by
  obtain _ | ⟨c, g⟩ := g
  · exact absurd rfl h.ne_nil
  · have hc : c ≠ 48 := by
      rintro rfl
      have hvalue := h.value
      rw [h.canonical rfl] at hvalue
      exact hv (Option.some.inj hvalue).symm
    rw [encodeNumber, digitLoop, if_neg (by simp [hc]), if_neg (by simp),
      digitLoop_eq Nat.one_pos]

/-- Zero is written as a label of one character without the character. -/
theorem encodeNumber_zero : encodeNumber (printU 0) = [1] := rfl

theorem encodeNumbers_length_le (octets : List UInt8) :
    (octets.flatMap fun o => encodeNumber (printU o.toNat)).length ≤
      (octets.flatMap fun o => UInt8.ofNat (printU o.toNat).length :: printU o.toNat).length := by
  induction octets with
  | nil => exact le_rfl
  | cons o octets ih =>
    rw [List.flatMap_cons, List.flatMap_cons, List.length_append, List.length_append]
    exact Nat.add_le_add (Nat.succ_le_succ (digitLoop_length_le 0 false _)) ih

/-- Numbers are written as labels just when none is zero. -/
theorem encodeNumbers_iff (octets : List UInt8) :
    octets.flatMap (fun o => encodeNumber (printU o.toNat)) =
        octets.flatMap (fun o => UInt8.ofNat (printU o.toNat).length :: printU o.toNat) ↔
      ∀ o ∈ octets, o ≠ 0 := by
  induction octets with
  | nil => simp
  | cons o octets ih =>
    rw [List.forall_mem_cons, List.flatMap_cons, List.flatMap_cons]
    by_cases ho : o = 0
    · -- the zero makes the bytes fewer
      subst ho
      refine iff_of_false (fun heq => ?_) fun h => h.1 rfl
      have hlength := congrArg List.length heq
      rw [UInt8.toNat_zero, encodeNumber_zero, List.length_append, List.length_append] at hlength
      have hle := encodeNumbers_length_le octets
      have htwo : (UInt8.ofNat (printU 0).length :: printU 0).length = 2 := rfl
      rw [htwo, List.length_singleton] at hlength
      omega
    · have hne : o.toNat ≠ 0 := fun hzero => ho (UInt8.toNat_inj.1 hzero)
      rw [encodeNumber_of_ne_zero (decimal_octet o) hne, List.append_cancel_left_eq, ih]
      exact (and_iff_right ho).symm

/-- The bytes are those of the name just when no octet is zero. -/
theorem dnsInsertIpQuery_iff (name : Fin 4 → UInt8) :
    dnsInsertIpQuery name = some (wire (reverseName name)) ↔ ∀ i, name i ≠ 0 := by
  have hwire : wire (reverseName name) =
      [name 3, name 2, name 1, name 0].flatMap
          (fun o => UInt8.ofNat (printU o.toNat).length :: printU o.toNat) ++
        (7 :: inAddr ++ 4 :: arpa ++ [0]) := by
    simp [reverseName, inAddr, arpa]
  have hall : (∀ i, name i ≠ 0) ↔ ∀ o ∈ [name 3, name 2, name 1, name 0], o ≠ 0 := by
    constructor
    · intro h
      simp [h]
    · intro h i
      fin_cases i <;> exact h _ (by simp)
  rw [dnsInsertIpQuery_eq, hwire, Option.some.injEq, List.append_left_inj, encodeNumbers_iff, hall]

end

/-! ## Names there and back -/

/-- An accepted name goes there and back just when its labels have at most 63 characters and all
of it at most 254, and the name of an address is right just when no octet is zero. -/
theorem names_encoded {name : List UInt8} {q q' : ℕ → UInt8}
    (h : dnsIsDottedDomainName name q = .ok q') (octets : Fin 4 → UInt8) :
    (RoundTrip name q' ↔
      (∀ label ∈ name.splitOn dotChar, label.length ≤ 63) ∧ name.length ≤ 254) ∧
    (dnsInsertIpQuery octets = some (wire (reverseName octets)) ↔ ∀ i, octets i ≠ 0) :=
  ⟨roundTrip_iff h, dnsInsertIpQuery_iff octets⟩

theorem names_encoded_one :
    (RoundTrip [97, dotChar]
        (Function.update (Function.update (Function.update (fun _ => 0) 1 97) 0 1) 2 0) ↔
      (∀ label ∈ [97, dotChar].splitOn dotChar, label.length ≤ 63) ∧ 2 ≤ 254) ∧
    (dnsInsertIpQuery (fun _ => 1) = some (wire (reverseName fun _ => 1)) ↔
      ∀ _ : Fin 4, (1 : UInt8) ≠ 0) :=
  @names_encoded [97, dotChar] (fun _ => 0) _ rfl fun _ => 1

/-- Sixty-four letters and a dot are accepted, but do not come back; and the zeros of an address
are left out. -/
theorem long_label_lost :
    (∃ q', dnsIsDottedDomainName (List.replicate 64 97 ++ [dotChar]) (fun _ => 0) = .ok q' ∧
      ¬RoundTrip (List.replicate 64 97 ++ [dotChar]) q') ∧
    dnsInsertIpQuery (fun _ => 0) ≠ some (wire (reverseName fun _ => 0)) := by
  constructor
  · have hok : (dnsIsDottedDomainName (List.replicate 64 97 ++ [dotChar])
        (fun _ => 0)).isOk = true := rfl
    cases h : dnsIsDottedDomainName (List.replicate 64 97 ++ [dotChar]) (fun _ => 0) with
    | error e =>
      rw [h] at hok
      cases hok
    | ok q' =>
      refine ⟨q', rfl, fun hround => ?_⟩
      have hle := ((roundTrip_iff h).1 hround).1 (List.replicate 64 97) (by
        rw [List.splitOn_append_cons_self_of_not_mem (by simp [dotChar])]
        exact List.mem_cons_self)
      rw [List.length_replicate] at hle
      omega
  · intro heq
    exact (dnsInsertIpQuery_iff _).1 heq 0 rfl

end Dnsutil
end Rtcs
end Mqx
