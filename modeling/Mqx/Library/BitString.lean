import Mathlib.Logic.Function.Basic
import Mathlib.Tactic.IntervalCases
import Mathlib.Tactic.Common

/-!
# Byte memories as bit strings

A byte-addressed memory is also a string of bits, least significant bit of
each byte first. Fields that are packed without regard to byte boundaries are
compared bit by bit: what a packed write changes is an interval of the string.
-/

namespace Mqx.Library

/-- Bit `j` of the string that the bytes `b 0, b 1, ...` spell. -/
def bitAt (b : ℕ → BitVec 8) (j : ℕ) : Bool := (b (j / 8)).getLsbD (j % 8)

/-- The bits from the start of byte `p` on. -/
theorem bitAt_add (b : ℕ → BitVec 8) (p k : ℕ) :
    bitAt b (8 * p + k) = (b (p + k / 8)).getLsbD (k % 8) := by
  have hdiv : (8 * p + k) / 8 = p + k / 8 := by omega
  have hmod : (8 * p + k) % 8 = k % 8 := by omega
  rw [bitAt, hdiv, hmod]

theorem bitAt_congr {b c : ℕ → BitVec 8} {j : ℕ} (h : b (j / 8) = c (j / 8)) :
    bitAt b j = bitAt c j := by
  unfold bitAt
  rw [h]

/-- A write to the `n` bytes from `p` on, given by what it does to each of
their bits: outside these bytes the string stays as it is. -/
theorem bitAt_of_window {b c : ℕ → BitVec 8} {p n : ℕ} {f : ℕ → Bool}
    (hout : ∀ q, ¬(p ≤ q ∧ q < p + n) → c q = b q)
    (hin : ∀ k < 8 * n, bitAt c (8 * p + k) = f (8 * p + k)) (j : ℕ) :
    bitAt c j = if 8 * p ≤ j ∧ j < 8 * (p + n) then f j else bitAt b j := by
  by_cases hj : 8 * p ≤ j ∧ j < 8 * (p + n)
  · obtain ⟨k, rfl⟩ : ∃ k, j = 8 * p + k := ⟨j - 8 * p, by omega⟩
    rw [if_pos hj]
    exact hin k (by omega)
  · rw [if_neg hj]
    exact bitAt_congr (hout (j / 8) (by omega))

end Mqx.Library
