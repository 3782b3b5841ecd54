import Mathlib.Algebra.Order.BigOperators.Group.Finset
import Mathlib.Data.Finset.Card
import Mathlib.Data.Nat.Bitwise
import Mathlib.Tactic.Common

/-!
# Counting set bits

The bits of a number below a bound as a finite set, and the loop that counts
them by clearing the lowest one.
-/

namespace BitCount

variable {w n m i a k : ℕ}

/-- The set bits below `w`. -/
def bits (w n : ℕ) : Finset ℕ := (Finset.range w).filter fun i => n.testBit i

@[simp] theorem mem_bits : i ∈ bits w n ↔ i < w ∧ n.testBit i = true := by
  simp [bits]

theorem card_bits_succ : (bits (w + 1) n).card = n % 2 + (bits w (n / 2)).card := by
  have hsplit : bits (w + 1) n =
      (if n % 2 = 1 then {0} else ∅) ∪ (bits w (n / 2)).map ⟨Nat.succ, Nat.succ_injective⟩ := by
    ext i
    cases i with
    | zero => split_ifs with h <;> simp [Nat.testBit_zero, h]
    | succ i => split_ifs with h <;> simp [Nat.testBit_succ]
  rw [hsplit, Finset.card_union_of_disjoint, Finset.card_map]
  · rcases Nat.mod_two_eq_zero_or_one n with h | h <;> simp [h]
  · rw [Finset.disjoint_left]
    intro i hi
    split_ifs at hi with h
    · rw [Finset.mem_singleton] at hi
      subst hi
      simp
    · simp at hi

/-- Clearing the lowest bit: one bit less. -/
theorem card_bits_land_pred (hn : n ≠ 0) (hlt : n < 2 ^ w) :
    (bits w (n &&& (n - 1))).card + 1 = (bits w n).card := by
  induction w generalizing n with
  | zero =>
    simp at hlt
    omega
  | succ w ih =>
    rw [card_bits_succ, card_bits_succ, Nat.and_div_two]
    rcases Nat.mod_two_eq_zero_or_one n with h | h
    · -- The lowest bit is in the upper part.
      have hland : (n &&& (n - 1)) % 2 = 0 := by
        have := @Nat.and_mod_two_eq_one n (n - 1)
        omega
      have hpred : (n - 1) / 2 = n / 2 - 1 := by omega
      have := @ih (n / 2) (by omega) (by omega)
      rw [hland, h, hpred]
      omega
    · have hland : (n &&& (n - 1)) % 2 = 0 := by
        have := @Nat.and_mod_two_eq_one n (n - 1)
        omega
      have hpred : (n - 1) / 2 = n / 2 := by omega
      rw [hland, h, hpred, Nat.and_self]
      omega

/-- Counting down once for each set bit. -/
def countDown : ℕ → ℕ → ℕ → ℕ
  | 0, _, k => k
  | fuel + 1, n, k => if n = 0 then k else countDown fuel (n &&& (n - 1)) (k - 1)

theorem countDown_eq (hlt : n < 2 ^ w) : countDown w n k = k - (bits w n).card := by
  have key : ∀ fuel n k, n < 2 ^ w → (bits w n).card ≤ fuel →
      countDown fuel n k = k - (bits w n).card := by
    intro fuel
    induction fuel with
    | zero =>
      intro n k _ hcard
      simp only [countDown]
      omega
    | succ fuel ih =>
      intro n k hlt hcard
      rw [countDown]
      split_ifs with h0
      · subst h0
        simp [bits]
      · have hone := card_bits_land_pred h0 hlt
        rw [ih _ _ (Nat.and_lt_two_pow _ (by omega)) (by omega)]
        omega
  apply key w n k hlt
  exact (Finset.card_filter_le _ _).trans (Finset.card_range w).le

/-- The ones from `a` on, `k` of them. -/
theorem testBit_ones : (2 ^ (a + k) - 2 ^ a).testBit i = decide (a ≤ i ∧ i < a + k) := by
  have h : 2 ^ (a + k) - 2 ^ a = 2 ^ a * (2 ^ k - 1) := by
    rw [Nat.mul_sub, Nat.pow_add, Nat.mul_one]
  rw [h, Nat.testBit_two_pow_mul, Nat.testBit_two_pow_sub_one]
  by_cases ha : a ≤ i
  · simp only [ha, decide_true, Bool.true_and, true_and, decide_eq_decide]
    omega
  · simp [ha]

/-- Adding ones: the new ones are counted. -/
theorem card_bits_lor :
    (bits w (n ||| m)).card = (bits w n).card + ((bits w m).card - (bits w (m &&& n)).card) := by
  have hunion : bits w (n ||| m) = bits w n ∪ bits w m := by
    ext i
    simp only [mem_bits, Nat.testBit_or, Bool.or_eq_true, Finset.mem_union]
    tauto
  have hinter : bits w (m &&& n) = bits w n ∩ bits w m := by
    ext i
    simp only [mem_bits, Nat.testBit_and, Bool.and_eq_true, Finset.mem_inter]
    tauto
  have hcard := Finset.card_union_add_card_inter (bits w n) (bits w m)
  have hle : (bits w n ∩ bits w m).card ≤ (bits w m).card :=
    Finset.card_le_card Finset.inter_subset_right
  rw [hunion, hinter]
  omega

end BitCount
