import Mathlib.Data.BitVec
import Mathlib.Tactic.Common

/-!
# Masks

Facts about conjunctions of bit vectors, stated bit by bit.
-/

namespace BitVec

variable {w : ℕ} {a b m : BitVec w} {i : ℕ}

theorem and_eq_left_iff (a b : BitVec w) :
    a &&& b = a ↔ ∀ i, a.getLsbD i = true → b.getLsbD i = true := by
  constructor
  · intro h i ha
    have hi := congrArg (fun v : BitVec w => v.getLsbD i) h
    simpa [ha] using hi
  · intro h
    apply eq_of_getLsbD_eq
    intro i _
    have hi := h i
    cases ha : a.getLsbD i <;> simp_all

theorem and_ne_zero_iff (a b : BitVec w) :
    a &&& b ≠ 0 ↔ ∃ i, a.getLsbD i = true ∧ b.getLsbD i = true := by
  rw [ne_eq, ← not_iff_comm]
  simp only [not_exists]
  constructor
  · intro h
    apply eq_of_getLsbD_eq
    intro i _
    have hi := h i
    cases ha : a.getLsbD i <;> simp_all
  · intro h i ha
    have hi := congrArg (fun v : BitVec w => v.getLsbD i) h
    simp [ha] at hi

theorem getLsbD_and_not (h : (a &&& ~~~m).getLsbD i = true) :
    a.getLsbD i = true ∧ m.getLsbD i = false := by
  rw [getLsbD_and, getLsbD_not] at h
  simp only [Bool.and_eq_true, Bool.not_eq_true', decide_eq_true_eq] at h
  exact ⟨h.1, h.2.2⟩

/-- Bits that are not there need not be cleared. -/
theorem and_not_and_and (v a m : BitVec w) :
    v &&& ~~~(a &&& (v &&& m)) = v &&& ~~~(a &&& m) := by
  apply eq_of_getLsbD_eq
  intro i hi
  simp only [getLsbD_and, getLsbD_not, hi, decide_true, Bool.true_and]
  cases v.getLsbD i <;> simp

end BitVec
