import Mathlib.Tactic.IntervalCases
import Mqx.Library.Numeral
import Mqx.Rtcs.InetPton

/-!
# What the text of an address stands for

The text forms of RFC 4291: groups of hexadecimal digits, two colons for a run of zero groups,
and an address of version 4 in decimal at the end. `inet_pton6` accepts these texts and no
others, and returns what they stand for but for the bytes of a decimal end, which it stores in
the order of the host.
-/

namespace Mqx
namespace Rtcs
namespace Inet

/-! ## Texts -/

def hexDigit (ch : UInt8) : Option ℕ :=
  if 48 ≤ ch ∧ ch ≤ 57 then some (ch.toNat - 48)
  else if 97 ≤ ch ∧ ch ≤ 102 then some (ch.toNat - 87)
  else if 65 ≤ ch ∧ ch ≤ 70 then some (ch.toNat - 55)
  else none

def decimalDigit (ch : UInt8) : Option ℕ :=
  if 48 ≤ ch ∧ ch ≤ 57 then some (ch.toNat - 48) else none

/-- One to four hexadecimal digits. -/
structure HexGroup (text : List UInt8) (v : ℕ) : Prop where
  ne_nil : text ≠ []
  length_le : text.length ≤ 4
  value : readNumeral 16 hexDigit 0 text = some v

/-- A number of one byte in decimal, without leading zeros. -/
structure Decimal (text : List UInt8) (v : ℕ) : Prop where
  ne_nil : text ≠ []
  value : readNumeral 10 decimalDigit 0 text = some v
  le : v ≤ 255
  canonical : text.head? = some 48 → text = [48]

/-- Decimal numbers with dots between them. -/
inductive Octets : List UInt8 → List UInt8 → Prop
  | one {g : List UInt8} {v : ℕ} (h : Decimal g v) : Octets g [UInt8.ofNat v]
  | more {g t o : List UInt8} {v : ℕ} (h : Decimal g v) (ht : Octets t o) :
      Octets (g ++ dotChar :: t) (UInt8.ofNat v :: o)

/-- An address of version 4. -/
def Dotted (text bytes : List UInt8) : Prop := Octets text bytes ∧ bytes.length = 4

/-- The two bytes of a group. -/
def pair (v : ℕ) : List UInt8 := [UInt8.ofNat (v >>> 8), UInt8.ofNat v]

/-- Groups with a colon behind each. -/
inductive Lead : List UInt8 → List UInt8 → Prop
  | nil : Lead [] []
  | cons {g t bs : List UInt8} {v : ℕ} (h : HexGroup g v) (ht : Lead t bs) :
      Lead (g ++ colonChar :: t) (pair v ++ bs)

/-- Groups with colons between them; the last may be an address of version 4. -/
inductive Tail : List UInt8 → List UInt8 → Bool → Prop
  | last {g : List UInt8} {v : ℕ} (h : HexGroup g v) : Tail g (pair v) false
  | dotted {t o : List UInt8} (h : Dotted t o) : Tail t o true
  | cons {g t bs : List UInt8} {v : ℕ} {d : Bool} (h : HexGroup g v) (ht : Tail t bs d) :
      Tail (g ++ colonChar :: t) (pair v ++ bs) d

/-- Groups behind two colons, or none. -/
def Part (text bytes : List UInt8) (dotted : Bool) : Prop :=
  text = [] ∧ bytes = [] ∧ dotted = false ∨ Tail text bytes dotted

/-- Zero bytes between the ends of an address. -/
def filled (left right : List UInt8) : List UInt8 :=
  left ++ List.replicate (16 - (left.length + right.length)) 0 ++ right

/-- The text stands for the address of sixteen bytes; the flag says that it has a decimal end. -/
inductive Denotes : List UInt8 → List UInt8 → Bool → Prop
  | full {t a : List UInt8} {d : Bool} (h : Tail t a d) (hlen : a.length = 16) : Denotes t a d
  | leading {r rb : List UInt8} {d : Bool} (h : Part r rb d) (hlen : rb.length < 16) :
      Denotes (colonChar :: colonChar :: r) (filled [] rb) d
  | inner {l lb r rb : List UInt8} {d : Bool} (hl : Lead l lb) (hne : l ≠ []) (h : Part r rb d)
      (hlen : lb.length + rb.length < 16) : Denotes (l ++ colonChar :: r) (filled lb rb) d

/-! ## Version 4 -/

variable {g t l o bs done rest src : List UInt8} {v n cur octets : ℕ} {c : UInt8} {d : Bool}

-- The equations are generated once, before the proofs that rewrite with them.
section
attribute [local simp] readNumeral pton4Loop
end

theorem digits_idxOf? (c : UInt8) : digits.idxOf? c = decimalDigit c := by
  have h : ∀ n : Fin 256, digits.idxOf? (UInt8.ofNat n) = decimalDigit (UInt8.ofNat n) := by
    decide +kernel
  simpa using h ⟨c.toNat, c.toNat_lt⟩

theorem decimalDigit_dot : decimalDigit dotChar = none := by decide

theorem decimalDigit_zero (h : decimalDigit c = some 0) : c = 48 := by
  rw [decimalDigit] at h
  split_ifs at h with hc
  rw [Option.some.injEq] at h
  rw [UInt8.le_iff_toNat_le, UInt8.le_iff_toNat_le] at hc
  apply UInt8.toNat_inj.mp
  have h48 : (48 : UInt8).toNat = 48 := rfl
  omega

/-- The loop inside a number that does not start with a zero. -/
theorem pton4Loop_number (hcur : cur ≠ 0 ∨ g = []) (h : readNumeral 10 decimalDigit cur g = some v)
    (hv : v ≤ 255) :
    pton4Loop octets true done cur (g ++ rest) = pton4Loop octets true done v rest := by
  induction g generalizing cur with
  | nil =>
    rw [readNumeral, Option.some.injEq] at h
    rw [h, List.nil_append]
  | cons c g ih =>
    obtain ⟨d, hd, hrest⟩ := readNumeral_cons h
    have hne : cur ≠ 0 := hcur.resolve_right (by simp)
    have hle := le_of_readNumeral (by omega) hrest
    rw [List.cons_append, pton4Loop, digits_idxOf?, hd]
    simp only
    rw [if_neg (by simp [hne]), if_neg (by omega), if_neg (by simp)]
    exact ih (Or.inl (by omega)) hrest

theorem pton4Loop_decimal (h : Decimal g v) (ho : octets < 4) :
    pton4Loop octets false done 0 (g ++ rest) = pton4Loop (octets + 1) true done v rest := by
  obtain ⟨c, g', rfl⟩ : ∃ c g', g = c :: g' := by
    cases g with
    | nil => exact absurd rfl h.ne_nil
    | cons c g' => exact ⟨c, g', rfl⟩
  obtain ⟨d, hd, hrest⟩ := readNumeral_cons h.value
  rw [Nat.zero_mul, Nat.zero_add] at hrest
  have hle := le_of_readNumeral (by omega) hrest
  have hfirst : d ≠ 0 ∨ g' = [] := by
    by_cases hzero : d = 0
    · right
      have hc := decimalDigit_zero (hzero ▸ hd)
      have hone := h.canonical (by rw [List.head?_cons, hc])
      exact (List.cons.inj hone).2
    · exact Or.inl hzero
  have hv := h.le
  rw [List.cons_append, pton4Loop, digits_idxOf?, hd]
  simp only [Nat.zero_mul, Nat.zero_add]
  rw [if_neg (by simp), if_neg (by omega), if_pos (by simp), if_neg (by omega)]
  exact pton4Loop_number hfirst hrest hv

theorem Octets.length_pos (h : Octets t o) : 0 < o.length := by
  cases h <;> simp

/-- Numbers with dots between them are read to the end. -/
theorem pton4Loop_octets (h : Octets t o) (hlen : octets + o.length = 4) :
    pton4Loop octets false done 0 t = some (done ++ o) := by
  induction h generalizing octets done with
  | @one g v h =>
    rw [List.length_singleton] at hlen
    have hrun := @pton4Loop_decimal g done [] v octets h (by omega)
    rw [List.append_nil] at hrun
    rw [hrun, pton4Loop, if_neg (by omega)]
  | @more g t o v h ht ih =>
    have hpos := ht.length_pos
    rw [List.length_cons] at hlen
    have hrest : pton4Loop (octets + 1) false (done ++ [UInt8.ofNat v]) 0 t =
        some (done ++ [UInt8.ofNat v] ++ o) := ih (by omega)
    rw [pton4Loop_decimal h (by omega), pton4Loop, digits_idxOf?, decimalDigit_dot]
    simp only
    rw [if_pos ⟨trivial, trivial⟩, if_neg (by omega), hrest, List.append_assoc,
      List.singleton_append]

/-- Inside a number: the rest of its digits, and the end or a dot. -/
theorem pton4Loop_number_inv (hcur : cur ≤ 255)
    (h : pton4Loop octets true done cur src = some l) :
    ∃ g rest v, src = g ++ rest ∧ readNumeral 10 decimalDigit cur g = some v ∧ v ≤ 255 ∧
      (cur ≠ 0 ∨ g = []) ∧
      (rest = [] ∧ 4 ≤ octets ∧ l = done ++ [UInt8.ofNat v] ∨
        ∃ t, rest = dotChar :: t ∧ octets ≠ 4 ∧
          pton4Loop octets false (done ++ [UInt8.ofNat v]) 0 t = some l) := by
  induction src generalizing cur with
  | nil =>
    rw [pton4Loop] at h
    split_ifs at h with ho
    exact ⟨[], [], cur, rfl, rfl, hcur, Or.inr rfl,
      Or.inl ⟨rfl, by omega, (Option.some.inj h).symm⟩⟩
  | cons c src ih =>
    rw [pton4Loop, digits_idxOf?] at h
    cases hd : decimalDigit c with
    | some d =>
      rw [hd] at h
      simp only [true_and, not_true_eq_false, if_false] at h
      split_ifs at h with hzero hlarge
      obtain ⟨g, rest, v, rfl, hvalue, hv, -, hend⟩ := ih (by omega) h
      refine ⟨c :: g, rest, v, rfl, ?_, hv, Or.inl hzero, hend⟩
      rw [readNumeral, hd]
      exact hvalue
    | none =>
      rw [hd] at h
      simp only at h
      split_ifs at h with hdot hfour
      refine ⟨[], c :: src, cur, rfl, rfl, hcur, Or.inr rfl, Or.inr ⟨src, ?_, hfour, h⟩⟩
      rw [hdot.1]

/-- What is accepted are numbers with dots between them. -/
theorem pton4Loop_inv (ho : octets < 4) (h : pton4Loop octets false done 0 src = some l) :
    ∃ o, Octets src o ∧ octets + o.length = 4 ∧ l = done ++ o := by
  induction hn : src.length using Nat.strong_induction_on generalizing octets done src with
  | h n ih =>
    cases src with
    | nil =>
      rw [pton4Loop, if_pos ho] at h
      cases h
    | cons c src =>
      rw [pton4Loop, digits_idxOf?] at h
      cases hd : decimalDigit c with
      | none =>
        rw [hd] at h
        simp at h
      | some d =>
        rw [hd] at h
        simp only [Nat.zero_mul, Nat.zero_add] at h
        have hlarge : ¬ d > 255 := by
          intro hlarge
          rw [if_neg (by simp), if_pos hlarge] at h
          cases h
        rw [if_neg (by simp), if_neg hlarge, if_pos (by simp), if_neg (by omega)] at h
        obtain ⟨g, rest, v, rfl, hvalue, hv, hfirst, hend⟩ :=
          pton4Loop_number_inv (by omega) h
        have hdec : Decimal (c :: g) v := by
          refine ⟨by simp, ?_, hv, ?_⟩
          · rw [readNumeral, hd, Option.bind_some, Nat.zero_mul, Nat.zero_add]
            exact hvalue
          · intro hc
            rw [List.head?_cons, Option.some.injEq] at hc
            rw [hc] at hd
            have hzero : d = 0 := (Option.some.inj hd).symm
            rw [hc, hfirst.resolve_left fun hne => hne hzero]
        rcases hend with ⟨rfl, hle, rfl⟩ | ⟨t, rfl, hne, hrest⟩
        · refine ⟨[UInt8.ofNat v], ?_, by rw [List.length_singleton]; omega, rfl⟩
          rw [List.append_nil]
          exact Octets.one hdec
        · have hlt : t.length < n := by
            rw [← hn, List.length_cons, List.length_append, List.length_cons]
            omega
          obtain ⟨o, ho', hlen, rfl⟩ := ih t.length hlt (by omega) hrest rfl
          refine ⟨UInt8.ofNat v :: o, Octets.more hdec ho', ?_, ?_⟩
          · rw [List.length_cons]
            omega
          · rw [List.append_assoc, List.singleton_append]

/-- A long stored in the order of the host. -/
theorem mqxHtonl_copyLong (h : l.length = 4) : mqxHtonl (copyLong l) = l.reverse := by
  obtain ⟨a, b, c, d, rfl⟩ : ∃ a b c d, l = [a, b, c, d] := List.length_eq_four.mp h
  simp only [mqxHtonl, copyLong, List.reverse_cons, List.reverse_nil, List.nil_append,
    List.cons_append, List.cons.injEq, and_true]
  refine ⟨?_, ?_, ?_, ?_⟩ <;> apply UInt8.toBitVec_inj.mp <;> ext i hi <;>
    interval_cases i <;> simp [BitVec.getLsbD_of_ge]

theorem inetPton4_iff : inetPton4 t = some l ↔ ∃ o, Dotted t o ∧ l = o.reverse := by
  rw [inetPton4]
  constructor
  · intro h
    cases hloop : pton4Loop 0 false [] 0 t with
    | none =>
      rw [hloop] at h
      cases h
    | some tmp =>
      rw [hloop] at h
      obtain ⟨o, ho, hlen, htmp⟩ := pton4Loop_inv (by omega) hloop
      rw [htmp] at h
      rw [Nat.zero_add] at hlen
      simp only [List.nil_append, mqxHtonl_copyLong hlen] at h
      exact ⟨_, ⟨ho, hlen⟩, (Option.some.inj h).symm⟩
  · rintro ⟨o, ⟨ho, hlen⟩, rfl⟩
    rw [pton4Loop_octets ho (by omega)]
    simp only [List.nil_append, mqxHtonl_copyLong hlen]

end Inet
end Rtcs
end Mqx
