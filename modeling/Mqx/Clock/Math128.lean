import Mathlib.Data.Nat.Digits.Defs
import Mathlib.Data.UInt
import Mathlib.Tactic.Linarith
import Mathlib.Tactic.Ring

/-!
# Arithmetic on words

Model of `psp_mat1.c`, `psp_mat2.c` and `psp_mat3.c`. A number of 128 bits is the list of its
four words, the low one first. Every caller passes the same array for an operand and the result.
-/

namespace Mqx.Clock

/-- The loop of `_psp_mul_128_by_32` behind the word `lw`, which has the carry so far; the last
carry is the overflow. -/
def mulLoop (mul : UInt32) : UInt32 → List UInt32 → List UInt32 × UInt32
  | lw, [] => ([], lw)
  | lw, m :: ms =>
    let w := mul.toUInt64 * m.toUInt64
    let w0 := w.toUInt32
    let lw := lw + w0
    let next := (w >>> 32).toUInt32 + (if lw < w0 then 1 else 0)
    let (rest, r) := mulLoop mul next ms
    (lw :: rest, r)

/-- `_psp_mul_128_by_32`. -/
def pspMul128By32 (m : List UInt32) (mul : UInt32) : List UInt32 × UInt32 :=
  if mul = 0 ∨ m.all (· == 0) then (List.replicate m.length 0, 0)
  else if mul = 1 then (m, 0)
  else mulLoop mul 0 m

/-- The loop of `_psp_div_128_by_32` over the words of the numerator from the high end on.
`top` is the word of the quotient written last and `above` the words above it. -/
def divLoop (div : UInt32) (r : UInt64) (top : UInt32) (above : List UInt32) :
    List UInt32 → List UInt32 × UInt32
  | [] => (top :: above, r.toUInt32)
  | n :: ns =>
    let w := (r <<< 32) + n.toUInt64
    let d := w / div.toUInt64
    divLoop div (w % div.toUInt64) d.toUInt32 ((top + (d >>> 32).toUInt32) :: above) ns

/-- The division of `_psp_div_128_by_32` proper; the high word starts as the remainder. -/
def divWords (div : UInt32) : List UInt32 → List UInt32 × UInt32
  | [] => ([], 0)
  | n :: ns => divLoop div n.toUInt64 0 [] ns

/-- `_psp_div_128_by_32`. The result is not written for the divisor 0. -/
def pspDiv128By32 (n : List UInt32) (div : UInt32) : List UInt32 × UInt32 :=
  if div = 0 then (n, 0xFFFFFFFF)
  else if div = 1 then (n, 0)
  else if n.any (· != 0) then divWords div n.reverse
  else (n, 0)

/-- The loop of `_psp_add_element_to_array` with the carry `cy`. -/
def carryLoop (cy : UInt32) : List UInt32 → List UInt32 × UInt32
  | [] => ([], cy)
  | z :: zs =>
    let x := z + cy
    let (rest, cy) := carryLoop (if x < z then 1 else 0) zs
    (x :: rest, cy)

/-- `_psp_add_element_to_array`. -/
def pspAddElementToArray (s : List UInt32) (val : UInt32) : List UInt32 × UInt32 :=
  match s with
  | [] => ([], 0)
  | x :: xs =>
    let y := x + val
    let (rest, cy) := carryLoop (if y < val then 1 else 0) xs
    (y :: rest, cy)

/-! ## Values -/

/-- The number that a list of words stands for. -/
def wordsValue (l : List UInt32) : ℕ := Nat.ofDigits (2 ^ 32) (l.map UInt32.toNat)

variable {w x y mul div lw cy top val : UInt32} {l m n above : List UInt32} {d r : UInt64}

@[simp] theorem wordsValue_nil : wordsValue [] = 0 := rfl

theorem wordsValue_cons : wordsValue (w :: l) = w.toNat + 2 ^ 32 * wordsValue l := rfl

@[simp] theorem wordsValue_singleton : wordsValue [w] = w.toNat := by
  rw [wordsValue_cons, wordsValue_nil, Nat.mul_zero, Nat.add_zero]

theorem wordsValue_append :
    wordsValue (l ++ m) = wordsValue l + 2 ^ (32 * l.length) * wordsValue m := by
  rw [wordsValue, List.map_append, Nat.ofDigits_append, List.length_map, ← pow_mul]
  rfl

theorem wordsValue_lt (l : List UInt32) : wordsValue l < 2 ^ (32 * l.length) := by
  have h := @Nat.ofDigits_lt_base_pow_length (2 ^ 32) (l.map UInt32.toNat) (by norm_num)
    (fun d hd => by
      obtain ⟨w, -, rfl⟩ := List.mem_map.mp hd
      exact w.toNat_lt)
  rwa [List.length_map, ← pow_mul] at h

theorem wordsValue_eq_zero : wordsValue l = 0 ↔ ∀ w ∈ l, w = 0 := by
  induction l with
  | nil => simp
  | cons w l ih =>
    have hword : w.toNat = 0 ↔ w = 0 := by
      rw [← UInt32.toNat_inj]
      rfl
    rw [wordsValue_cons, List.forall_mem_cons, ← ih, ← hword]
    omega

theorem wordsValue_replicate (k : ℕ) : wordsValue (List.replicate k 0) = 0 :=
  wordsValue_eq_zero.mpr fun _ hw => (List.mem_replicate.mp hw).2

/-- The carry out of a sum of two words. -/
theorem toNat_add_carry (x y : UInt32) :
    (x + y).toNat + 2 ^ 32 * (if x + y < y then 1 else 0) = x.toNat + y.toNat := by
  have hx := x.toNat_lt
  have hy := y.toNat_lt
  have hsum := UInt32.toNat_add x y
  simp only [UInt32.lt_iff_toNat_lt]
  split_ifs with h <;> omega

/-- The low word of a result and the rest of it, put together. -/
theorem wordsValue_step {a b c d next : ℕ} {rest : List UInt32}
    (hword : w.toNat + 2 ^ 32 * next = a + b) (hrest : wordsValue rest + 2 ^ (32 * m.length) * c =
      d + next) : wordsValue (w :: rest) + 2 ^ (32 * (m.length + 1)) * c = a + b + 2 ^ 32 * d := by
  have hpow : 2 ^ (32 * (m.length + 1)) = 2 ^ 32 * 2 ^ (32 * m.length) := by
    rw [← pow_add]
    congr 1
    omega
  calc wordsValue (w :: rest) + 2 ^ (32 * (m.length + 1)) * c
      = w.toNat + 2 ^ 32 * (wordsValue rest + 2 ^ (32 * m.length) * c) := by
        rw [wordsValue_cons, hpow]
        ring
    _ = a + b + 2 ^ 32 * d := by
        rw [hrest, ← hword]
        ring

/-! ## Multiplication -/

/-- One word of the product with its carry. -/
theorem mulWord (mul m lw : UInt32) :
    (lw + (mul.toUInt64 * m.toUInt64).toUInt32).toNat +
      2 ^ 32 * (((mul.toUInt64 * m.toUInt64) >>> 32).toUInt32 +
        (if lw + (mul.toUInt64 * m.toUInt64).toUInt32 < (mul.toUInt64 * m.toUInt64).toUInt32
          then 1 else 0)).toNat = mul.toNat * m.toNat + lw.toNat := by
  have hprod : mul.toNat * m.toNat ≤ (2 ^ 32 - 1) * (2 ^ 32 - 1) :=
    Nat.mul_le_mul (Nat.le_sub_one_of_lt mul.toNat_lt) (Nat.le_sub_one_of_lt m.toNat_lt)
  have hw : (mul.toUInt64 * m.toUInt64).toNat = mul.toNat * m.toNat := by
    rw [UInt64.toNat_mul, UInt32.toNat_toUInt64, UInt32.toNat_toUInt64,
      Nat.mod_eq_of_lt (by omega)]
  generalize mul.toUInt64 * m.toUInt64 = w at hw ⊢
  have hlow : w.toUInt32.toNat = w.toNat % 2 ^ 32 := UInt64.toNat_toUInt32 w
  have hhigh : (w >>> 32).toUInt32.toNat = w.toNat / 2 ^ 32 := by
    rw [UInt64.toNat_toUInt32, UInt64.toNat_shiftRight]
    have : (32 : UInt64).toNat % 64 = 32 := rfl
    rw [this, Nat.shiftRight_eq_div_pow]
    omega
  have hcarry := toNat_add_carry lw w.toUInt32
  split_ifs at hcarry ⊢
  · rw [UInt32.toNat_add (w >>> 32).toUInt32, hhigh]
    have : (1 : UInt32).toNat = 1 := rfl
    omega
  · rw [UInt32.toNat_add (w >>> 32).toUInt32, hhigh]
    have : (0 : UInt32).toNat = 0 := rfl
    omega

theorem mulLoop_value :
    wordsValue (mulLoop mul lw m).1 + 2 ^ (32 * m.length) * (mulLoop mul lw m).2.toNat =
        mul.toNat * wordsValue m + lw.toNat ∧ (mulLoop mul lw m).1.length = m.length := by
  induction m generalizing lw with
  | nil => simp [mulLoop]
  | cons w m ih =>
    have hword := mulWord mul w lw
    generalize hnext : ((mul.toUInt64 * w.toUInt64) >>> 32).toUInt32 +
      (if lw + (mul.toUInt64 * w.toUInt64).toUInt32 < (mul.toUInt64 * w.toUInt64).toUInt32
        then 1 else 0) = next at hword
    obtain ⟨hrest, hlength⟩ := @ih next
    simp only [mulLoop, hnext, List.length_cons]
    refine ⟨?_, by rw [hlength]⟩
    rw [wordsValue_step hword hrest, wordsValue_cons]
    ring

/-- `_psp_mul_128_by_32` returns what does not fit into the words. -/
theorem pspMul128By32_value (m : List UInt32) (mul : UInt32) :
    wordsValue (pspMul128By32 m mul).1 + 2 ^ (32 * m.length) * (pspMul128By32 m mul).2.toNat =
        mul.toNat * wordsValue m ∧ (pspMul128By32 m mul).1.length = m.length := by
  rw [pspMul128By32]
  split_ifs with hzero hone
  · have hprod : mul.toNat * wordsValue m = 0 := by
      rcases hzero with rfl | hall
      · exact Nat.zero_mul _
      · rw [wordsValue_eq_zero.mpr (by simpa using hall), Nat.mul_zero]
    rw [hprod]
    simp [wordsValue_replicate]
  · simp [hone]
  · simpa using @mulLoop_value mul 0 m

theorem pspMul128By32_mod (m : List UInt32) (mul : UInt32) :
    wordsValue (pspMul128By32 m mul).1 = mul.toNat * wordsValue m % 2 ^ (32 * m.length) := by
  obtain ⟨hvalue, hlength⟩ := pspMul128By32_value m mul
  have hlt := wordsValue_lt (pspMul128By32 m mul).1
  rw [hlength] at hlt
  rw [← hvalue, Nat.add_mul_mod_self_left, Nat.mod_eq_of_lt hlt]

/-! ## Addition -/

theorem carryLoop_value (hcy : cy.toNat ≤ 1) :
    wordsValue (carryLoop cy l).1 + 2 ^ (32 * l.length) * (carryLoop cy l).2.toNat =
        wordsValue l + cy.toNat ∧ (carryLoop cy l).1.length = l.length := by
  induction l generalizing cy with
  | nil => simp [carryLoop]
  | cons z l ih =>
    have hsum : (z + cy).toNat + 2 ^ 32 * (if z + cy < z then (1 : UInt32) else 0).toNat =
        z.toNat + cy.toNat := by
      have hz := z.toNat_lt
      have hadd := UInt32.toNat_add z cy
      have h0 : (0 : UInt32).toNat = 0 := rfl
      have h1 : (1 : UInt32).toNat = 1 := rfl
      simp only [UInt32.lt_iff_toNat_lt]
      split_ifs with h <;> omega
    generalize hnext : (if z + cy < z then (1 : UInt32) else 0) = next at hsum
    have hle : next.toNat ≤ 1 := by
      rw [← hnext]
      split_ifs <;> decide
    obtain ⟨hrest, hlength⟩ := ih hle
    simp only [carryLoop, hnext, List.length_cons]
    refine ⟨?_, by rw [hlength]⟩
    rw [wordsValue_step hsum (hrest.trans rfl), wordsValue_cons]
    ring

theorem pspAddElementToArray_value (hl : l ≠ []) (val : UInt32) :
    wordsValue (pspAddElementToArray l val).1 +
        2 ^ (32 * l.length) * (pspAddElementToArray l val).2.toNat =
        wordsValue l + val.toNat ∧ (pspAddElementToArray l val).1.length = l.length := by
  rcases l with _ | ⟨x, l⟩
  · exact absurd rfl hl
  · have hsum := toNat_add_carry x val
    have hbit : (if x + val < val then (1 : UInt32) else 0).toNat =
        if x + val < val then 1 else 0 := by
      split_ifs <;> rfl
    rw [← hbit] at hsum
    have hle : (if x + val < val then (1 : UInt32) else 0).toNat ≤ 1 := by
      rw [hbit]
      split_ifs <;> omega
    obtain ⟨hrest, hlength⟩ := @carryLoop_value _ l hle
    simp only [pspAddElementToArray, List.length_cons]
    refine ⟨?_, by rw [hlength]⟩
    rw [wordsValue_step hsum hrest, wordsValue_cons]
    ring

/-! ## Division -/

/-- One word of the quotient: the remainder stays below the divisor. -/
theorem divWord (hr : r.toNat < 2 ^ 32) (div n : UInt32) :
    ((r <<< 32) + n.toUInt64).toNat = r.toNat * 2 ^ 32 + n.toNat ∧
      (((r <<< 32) + n.toUInt64) % div.toUInt64).toNat = (r.toNat * 2 ^ 32 + n.toNat) % div.toNat ∧
      (((r <<< 32) + n.toUInt64) / div.toUInt64).toNat =
        (r.toNat * 2 ^ 32 + n.toNat) / div.toNat := by
  have hn := n.toNat_lt
  have hw : ((r <<< 32) + n.toUInt64).toNat = r.toNat * 2 ^ 32 + n.toNat := by
    have h32 : (32 : UInt64).toNat % 64 = 32 := rfl
    rw [UInt64.toNat_add, UInt64.toNat_shiftLeft, h32, Nat.shiftLeft_eq, UInt32.toNat_toUInt64]
    omega
  refine ⟨hw, ?_, ?_⟩
  · rw [UInt64.toNat_mod, hw, UInt32.toNat_toUInt64]
  · rw [UInt64.toNat_div, hw, UInt32.toNat_toUInt64]

/-- The words of a quotient, the upper one of which was written before. -/
theorem quotient_words (hd : ((2 : ℕ) ^ 32 ≤ d.toNat → top = 0)) :
    wordsValue (d.toUInt32 :: (top + (d >>> 32).toUInt32) :: above) =
      d.toNat + 2 ^ 32 * wordsValue (top :: above) := by
  have hdlt := d.toNat_lt
  have htop := top.toNat_lt
  have hlow : d.toUInt32.toNat = d.toNat % 2 ^ 32 := UInt64.toNat_toUInt32 d
  have hhigh : (d >>> 32).toUInt32.toNat = d.toNat / 2 ^ 32 := by
    have h32 : (32 : UInt64).toNat % 64 = 32 := rfl
    rw [UInt64.toNat_toUInt32, UInt64.toNat_shiftRight, h32, Nat.shiftRight_eq_div_pow]
    omega
  have hsum : (top + (d >>> 32).toUInt32).toNat = top.toNat + d.toNat / 2 ^ 32 := by
    rw [UInt32.toNat_add, hhigh]
    rcases Nat.lt_or_ge d.toNat (2 ^ 32) with h | h
    · omega
    · have hzero : top.toNat = 0 := by rw [hd h]; rfl
      omega
  rw [wordsValue_cons, wordsValue_cons, wordsValue_cons, hlow, hsum]
  omega

/-- The words read so far are the quotient so far times the divisor and the remainder. A first
word may exceed the divisor as long as nothing is written above it. -/
theorem divLoop_value (hdiv : 0 < div.toNat) (hr : r.toNat < 2 ^ 32)
    (htop : top = 0 ∨ r.toNat < div.toNat) :
    (wordsValue (divLoop div r top above n).1) * div.toNat + (divLoop div r top above n).2.toNat =
      (wordsValue (top :: above) * div.toNat + r.toNat) * 2 ^ (32 * n.length) +
        wordsValue n.reverse ∧
      (divLoop div r top above n).1.length = above.length + 1 + n.length ∧
      (n ≠ [] ∨ r.toNat < div.toNat → (divLoop div r top above n).2.toNat < div.toNat) := by
  induction n generalizing r top above with
  | nil =>
    have hr' : r.toUInt32.toNat = r.toNat := by
      rw [UInt64.toNat_toUInt32]
      exact Nat.mod_eq_of_lt hr
    simp [divLoop, hr']
  | cons n ns ih =>
    obtain ⟨-, hmod, hquot⟩ := divWord hr div n
    have hdivlt := div.toNat_lt
    have hn := n.toNat_lt
    have hnext : (((r <<< 32) + n.toUInt64) % div.toUInt64).toNat < div.toNat := by
      rw [hmod]
      exact Nat.mod_lt _ hdiv
    have hsplit := Nat.div_add_mod' (r.toNat * 2 ^ 32 + n.toNat) div.toNat
    rw [← hmod, ← hquot] at hsplit
    generalize hd : ((r <<< 32) + n.toUInt64) / div.toUInt64 = d at hsplit hquot
    have hwords : wordsValue (d.toUInt32 :: (top + (d >>> 32).toUInt32) :: above) =
        d.toNat + 2 ^ 32 * wordsValue (top :: above) := by
      refine quotient_words fun hge => htop.resolve_right fun hlt => ?_
      rw [hquot, Nat.le_div_iff_mul_le hdiv] at hge
      have hmul : r.toNat * 2 ^ 32 + 2 ^ 32 ≤ 2 ^ 32 * div.toNat := by
        rw [← Nat.succ_mul, Nat.mul_comm (2 ^ 32)]
        exact Nat.mul_le_mul_right _ hlt
      omega
    obtain ⟨hvalue, hlength, hrem⟩ := @ih d.toUInt32 ((top + (d >>> 32).toUInt32) :: above)
      (((r <<< 32) + n.toUInt64) % div.toUInt64) (by omega) (Or.inr hnext)
    simp only [divLoop, hd]
    refine ⟨?_, ?_, fun _ => hrem (Or.inr hnext)⟩
    · rw [hvalue, hwords, List.reverse_cons, wordsValue_append, List.length_reverse,
        List.length_cons, Nat.mul_succ, pow_add, wordsValue_singleton]
      have hcombine : (d.toNat + 2 ^ 32 * wordsValue (top :: above)) * div.toNat +
          (((r <<< 32) + n.toUInt64) % div.toUInt64).toNat =
          (wordsValue (top :: above) * div.toNat + r.toNat) * 2 ^ 32 + n.toNat := by
        linarith
      rw [hcombine]
      ring
    · rw [hlength, List.length_cons, List.length_cons]
      omega

/-- `_psp_div_128_by_32` for a number of at least two words. -/
theorem pspDiv128By32_value (hn : 2 ≤ n.length) (hdiv : 0 < div) :
    wordsValue (pspDiv128By32 n div).1 = wordsValue n / div.toNat ∧
      (pspDiv128By32 n div).1.length = n.length := by
  have hpos : 0 < div.toNat := by simpa [UInt32.lt_iff_toNat_lt] using hdiv
  have hne : div ≠ 0 := by
    rintro rfl
    exact absurd hpos (by decide)
  rw [pspDiv128By32, if_neg hne]
  split_ifs with hone hsome
  · rw [hone]
    exact ⟨(Nat.div_one _).symm, rfl⟩
  · obtain ⟨top, rest, hrev⟩ : ∃ top rest, n.reverse = top :: rest := by
      cases h : n.reverse with
      | nil =>
        rw [List.reverse_eq_nil_iff] at h
        simp [h] at hn
      | cons top rest => exact ⟨top, rest, rfl⟩
    have hlen : rest.length + 1 = n.length := by
      have := congrArg List.length hrev
      rw [List.length_reverse, List.length_cons] at this
      omega
    have hrest : rest ≠ [] := by
      rintro rfl
      simp at hlen
      omega
    have hvalueOf : wordsValue n = top.toNat * 2 ^ (32 * rest.length) + wordsValue rest.reverse := by
      rw [← List.reverse_reverse n, hrev, List.reverse_cons, wordsValue_append, List.length_reverse,
        wordsValue_singleton]
      ring
    obtain ⟨hvalue, hlength, hrem⟩ := @divLoop_value div 0 rest [] top.toUInt64 hpos
      (by rw [UInt32.toNat_toUInt64]; exact top.toNat_lt) (Or.inl rfl)
    rw [hrev, divWords]
    have hzero : (0 : UInt32).toNat = 0 := rfl
    rw [wordsValue_singleton, hzero, Nat.zero_mul, Nat.zero_add, UInt32.toNat_toUInt64, ← hvalueOf] at hvalue
    constructor
    · rw [← hvalue, Nat.add_comm, Nat.add_mul_div_right _ _ hpos,
        Nat.div_eq_of_lt (hrem (Or.inl hrest)), Nat.zero_add]
    · rw [hlength]
      simp
      omega
  · have hzero : wordsValue n = 0 := wordsValue_eq_zero.mpr (by simpa using hsome)
    rw [hzero]
    exact ⟨(Nat.zero_div _).symm, rfl⟩

end Mqx.Clock
