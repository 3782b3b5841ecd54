import Mathlib.Algebra.BigOperators.Group.List.Basic
import Mathlib.Tactic.Ring

/-!
# One's complement sums

Sums of words in which a carry out of the word is added back at its low end. Zero is the sum of
zeros only; every other sum is the representative between one and the largest word of the
ordinary sum.
-/

variable {w a b m n : ℕ} {l : List ℕ}

/-- Sum of two words with the carry added back. -/
def endAround (w a b : ℕ) : ℕ := (a + b) % 2 ^ w + (a + b) / 2 ^ w

/-- One's complement sum of a first word and a list of words. -/
def onesSum (w a : ℕ) (l : List ℕ) : ℕ := l.foldl (endAround w) a

/-- The number from one to `m` that is congruent to a positive number, and zero for zero. -/
def wordOf (m n : ℕ) : ℕ := if n = 0 then 0 else (n - 1) % m + 1

@[simp] theorem wordOf_zero (m : ℕ) : wordOf m 0 = 0 := rfl

theorem wordOf_pos (hn : 0 < n) : wordOf m n = (n - 1) % m + 1 := by
  rw [wordOf, if_neg (by omega)]

theorem wordOf_eq_zero : wordOf m n = 0 ↔ n = 0 := by
  rw [wordOf]
  split_ifs with h <;> simp [h]

theorem wordOf_of_le (h : n ≤ m) : wordOf m n = n := by
  rcases Nat.eq_zero_or_pos n with rfl | hn
  · rfl
  · rw [wordOf_pos hn, Nat.mod_eq_of_lt (by omega)]
    omega

theorem wordOf_le (hm : 0 < m) (n : ℕ) : wordOf m n ≤ m := by
  rcases Nat.eq_zero_or_pos n with rfl | hn
  · exact Nat.zero_le m
  · rw [wordOf_pos hn]
    exact Nat.mod_lt _ hm

/-- Multiples of the largest word go, as long as something stays. -/
theorem wordOf_add_mul (hn : 0 < n) (k : ℕ) : wordOf m (n + k * m) = wordOf m n := by
  rw [wordOf_pos hn, wordOf_pos (by omega), show n + k * m - 1 = n - 1 + k * m by omega,
    Nat.add_mul_mod_self_right]

/-- A summand may be reduced before it is added. -/
theorem wordOf_wordOf_add (a b : ℕ) : wordOf m (wordOf m a + b) = wordOf m (a + b) := by
  rcases Nat.eq_zero_or_pos a with rfl | ha
  · rfl
  · have hsplit : a + b = (wordOf m a + b) + (a - 1) / m * m := by
      have hdiv := Nat.div_add_mod' (a - 1) m
      rw [wordOf_pos ha]
      omega
    have hpos : 0 < wordOf m a + b := by
      rw [wordOf_pos ha]
      omega
    rw [hsplit, wordOf_add_mul hpos]

/-- Adding the part of a number above the word to the part in it keeps what the number stands
for. -/
theorem wordOf_fold (w n : ℕ) :
    wordOf (2 ^ w - 1) (n % 2 ^ w + n / 2 ^ w) = wordOf (2 ^ w - 1) n := by
  have hw : 0 < 2 ^ w := Nat.two_pow_pos w
  have hdiv := Nat.div_add_mod' n (2 ^ w)
  rcases Nat.eq_zero_or_pos n with rfl | hn
  · simp
  · have hpos : 0 < n % 2 ^ w + n / 2 ^ w := by
      rcases Nat.eq_zero_or_pos (n / 2 ^ w) with h | h
      · rw [h] at hdiv ⊢
        omega
      · omega
    have hmul : n / 2 ^ w * 2 ^ w = n / 2 ^ w * (2 ^ w - 1) + n / 2 ^ w := by
      rw [← Nat.mul_succ]
      congr 1
      omega
    have hsplit : n = (n % 2 ^ w + n / 2 ^ w) + n / 2 ^ w * (2 ^ w - 1) := by omega
    conv_rhs => rw [hsplit, wordOf_add_mul hpos]

theorem endAround_le (ha : a < 2 ^ w) (hb : b < 2 ^ w) : endAround w a b ≤ 2 ^ w - 1 := by
  rw [endAround]
  rcases Nat.lt_or_ge (a + b) (2 ^ w) with h | h
  · rw [Nat.mod_eq_of_lt h, Nat.div_eq_of_lt h]
    omega
  · have hdiv : (a + b) / 2 ^ w = 1 := Nat.div_eq_of_lt_le (by omega) (by omega)
    rw [Nat.mod_eq_sub_mod h, Nat.mod_eq_of_lt (by omega), hdiv]
    omega

theorem endAround_eq (ha : a < 2 ^ w) (hb : b < 2 ^ w) :
    endAround w a b = wordOf (2 ^ w - 1) (a + b) := by
  have hle := endAround_le ha hb
  rw [← wordOf_fold, ← endAround, wordOf_of_le hle]

/-- A one's complement sum is the word of the ordinary sum. -/
theorem onesSum_eq (ha : a < 2 ^ w) (hl : ∀ x ∈ l, x < 2 ^ w) :
    onesSum w a l = wordOf (2 ^ w - 1) (a + l.sum) := by
  induction l generalizing a with
  | nil =>
    rw [List.sum_nil, Nat.add_zero, wordOf_of_le (by omega)]
    rfl
  | cons x l ih =>
    have hx : x < 2 ^ w := hl x List.mem_cons_self
    have hend : endAround w a x < 2 ^ w := by
      have := endAround_le ha hx
      omega
    have hrest := ih hend fun y hy => hl y (List.mem_cons_of_mem x hy)
    rw [onesSum, List.foldl_cons, ← onesSum, hrest, endAround_eq ha hx, wordOf_wordOf_add,
      List.sum_cons, Nat.add_assoc]
