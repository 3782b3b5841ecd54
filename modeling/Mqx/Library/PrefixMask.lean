import Mathlib.Data.BitVec
import Mathlib.Tactic.Common

/-!
# Prefixes of bit vectors

A prefix of length `L` is the first `L` bits of a vector, counted from the most
significant one. Masks that cut a prefix off, the bit behind a prefix, and the
longest common prefix computed with shifts.
-/

namespace BitVec

variable {w L M i : ℕ} {x y z : BitVec w}

/-- `L` ones followed by zeros. -/
def prefixMask (w L : ℕ) : BitVec w := ~~~(allOnes w >>> L)

/-- The vectors agree on their first `L` bits. -/
def AgreeTo (L : ℕ) (x y : BitVec w) : Prop := ∀ i < L, x.getMsbD i = y.getMsbD i

theorem getMsbD_prefixMask (hi : i < w) : (prefixMask w L).getMsbD i = decide (i < L) := by
  simp only [prefixMask, getMsbD_not, getMsbD_ushiftRight, getMsbD_allOnes, hi, decide_true,
    Bool.true_and]
  rcases Nat.lt_or_ge i L with h | h
  · simp [h]
  · simp [Nat.not_lt.mpr h]
    omega

theorem prefixMask_zero : prefixMask w 0 = 0#w := by
  apply eq_of_getMsbD_eq
  intro i hi
  rw [getMsbD_prefixMask hi]
  simp

theorem toNat_not_prefixMask (hL : L ≤ w) : (~~~prefixMask w L).toNat = 2 ^ (w - L) - 1 := by
  rw [prefixMask, not_not, toNat_ushiftRight, toNat_allOnes, Nat.shiftRight_eq_div_pow]
  have hpow : 2 ^ w = 2 ^ (w - L) * 2 ^ L := by rw [← Nat.pow_add, Nat.sub_add_cancel hL]
  have h₁ := Nat.two_pow_pos (w - L)
  have h₂ := Nat.two_pow_pos L
  rw [hpow]
  generalize 2 ^ (w - L) = a at h₁
  generalize 2 ^ L = b at h₂
  apply Nat.div_eq_of_lt_le
  · rw [Nat.sub_mul]
    omega
  · rw [Nat.sub_add_cancel h₁]
    have := Nat.mul_pos h₁ h₂
    omega

theorem AgreeTo.symm (h : AgreeTo L x y) : AgreeTo L y x := fun i hi => (h i hi).symm

theorem AgreeTo.trans (h : AgreeTo L x y) (h' : AgreeTo L y z) : AgreeTo L x z :=
  fun i hi => (h i hi).trans (h' i hi)

theorem AgreeTo.mono (h : AgreeTo L x y) (hM : M ≤ L) : AgreeTo M x y :=
  fun i hi => h i (by omega)

theorem and_prefixMask_agree : AgreeTo L (x &&& prefixMask w L) x := by
  intro i hi
  rw [getMsbD_and]
  rcases Nat.lt_or_ge i w with h | h
  · simp [getMsbD_prefixMask h, hi]
  · simp [getMsbD_of_ge _ _ h]

/-- A vector without bits behind the prefix is found by masking exactly when it
agrees on the prefix. -/
theorem and_prefixMask_eq_iff (hy : y &&& prefixMask w L = y) :
    x &&& prefixMask w L = y ↔ AgreeTo L x y := by
  constructor
  · intro h
    rw [← h]
    exact and_prefixMask_agree.symm
  · intro h
    apply eq_of_getMsbD_eq
    intro i hi
    have hyi := congrArg (fun v : BitVec w => v.getMsbD i) hy
    simp only [getMsbD_and, getMsbD_prefixMask hi] at hyi ⊢
    rcases Nat.lt_or_ge i L with hL | hL
    · simp only [hL, decide_true, Bool.and_true]
      exact h i hL
    · simp only [Nat.not_lt.mpr hL, decide_false, Bool.and_false] at hyi ⊢
      exact hyi

/-- Longer masks are larger numbers. -/
theorem prefixMask_lt_iff (hL : L ≤ w) (hM : M ≤ w) :
    prefixMask w L < prefixMask w M ↔ L < M := by
  have hpow : 2 ^ (w - M) < 2 ^ (w - L) ↔ L < M := by
    rw [Nat.pow_lt_pow_iff_right (by decide)]
    omega
  have h₁ := toNat_not_prefixMask hL
  have h₂ := toNat_not_prefixMask hM
  have hl := Nat.two_pow_pos (w - L)
  have hm := Nat.two_pow_pos (w - M)
  have hlt₁ := (prefixMask w L).isLt
  have hlt₂ := (prefixMask w M).isLt
  rw [toNat_not] at h₁ h₂
  rw [← hpow, lt_def]
  omega

/-- The bit right behind a prefix. -/
def nextBit (m : BitVec w) : BitVec w := (~~~m >>> 1) + 1

theorem nextBit_prefixMask (hL : L < w) : nextBit (prefixMask w L) = twoPow w (w - 1 - L) := by
  apply eq_of_toNat_eq
  have hpow : 2 ^ (w - L) = 2 * 2 ^ (w - 1 - L) := by
    rw [← Nat.pow_succ']
    congr 1
    omega
  have hlt : 2 ^ (w - 1 - L) < 2 ^ w := Nat.pow_lt_pow_right (by decide) (by omega)
  have hpos := Nat.two_pow_pos (w - 1 - L)
  have hone : (1#w).toNat = 1 := by
    rw [toNat_ofNat, Nat.mod_eq_of_lt (Nat.one_lt_two_pow (by omega))]
  have hhalf : (2 ^ (w - L) - 1) >>> 1 = 2 ^ (w - 1 - L) - 1 := by
    rw [Nat.shiftRight_eq_div_pow, hpow]
    omega
  change ((~~~prefixMask w L >>> 1) + 1#w).toNat = _
  rw [toNat_add, toNat_ushiftRight, toNat_not_prefixMask hL.le, hhalf, hone, toNat_twoPow]
  congr 1
  omega

/-- Testing the bit behind a prefix. -/
theorem and_nextBit_ne_zero_iff (hL : L < w) :
    x &&& nextBit (prefixMask w L) ≠ 0 ↔ x.getMsbD L = true := by
  rw [nextBit_prefixMask hL, and_twoPow, getMsbD_eq_getLsbD]
  have hne : twoPow w (w - 1 - L) ≠ 0#w := by
    intro h
    have hbit : (twoPow w (w - 1 - L)).getLsbD (w - 1 - L) = false := by rw [h, getLsbD_zero]
    rw [getLsbD_twoPow] at hbit
    have : w - 1 - L < w := by omega
    simp [this] at hbit
  split_ifs with h
  · simpa [hL, h] using hne
  · simp [h]

/-- One step of spreading set bits to the right. -/
def smear (x : BitVec w) (k : ℕ) : BitVec w := x ||| (x >>> k)

/-- Some bit at `i`, or at most `k - 1` places to the left of it, is set. -/
def SetWithin (x : BitVec w) (k i : ℕ) : Prop := ∃ j ≤ i, i < j + k ∧ x.getMsbD j = true

theorem smear_spec {k : ℕ} (hx : ∀ i < w, y.getMsbD i = true ↔ SetWithin x k i) (hi : i < w) :
    (smear y k).getMsbD i = true ↔ SetWithin x (2 * k) i := by
  simp only [smear, getMsbD_or, getMsbD_ushiftRight, Bool.or_eq_true, hx i hi]
  constructor
  · rintro (⟨j, hj, hk, hb⟩ | h)
    · exact ⟨j, hj, by omega, hb⟩
    · simp only [Bool.and_eq_true, decide_eq_true_eq, Bool.not_eq_true', decide_eq_false_iff_not]
        at h
      rw [hx _ (by omega)] at h
      obtain ⟨_, hik, j, hj, hk, hb⟩ := h
      exact ⟨j, by omega, by omega, hb⟩
  · rintro ⟨j, hj, hk, hb⟩
    rcases Nat.lt_or_ge i (j + k) with h | h
    · exact .inl ⟨j, hj, h, hb⟩
    · right
      have hset : y.getMsbD (i - k) = true := (hx _ (by omega)).mpr ⟨j, by omega, by omega, hb⟩
      simp only [hset, hi, decide_true, Bool.true_and, Bool.and_true, Bool.not_eq_true',
        decide_eq_false_iff_not]
      omega

/-- The bits that follow the first set bit of a 32-bit vector. -/
def smear32 (x : BitVec 32) : BitVec 32 := smear (smear (smear (smear (smear x 1) 2) 4) 8) 16

theorem getMsbD_smear32 {x : BitVec 32} (hi : i < 32) :
    (smear32 x).getMsbD i = true ↔ ∃ j ≤ i, x.getMsbD j = true := by
  have h₀ : ∀ i < 32, x.getMsbD i = true ↔ SetWithin x 1 i := by
    intro i _
    constructor
    · exact fun h => ⟨i, le_rfl, by omega, h⟩
    · rintro ⟨j, hj, hk, h⟩
      obtain rfl : i = j := by omega
      exact h
  have h₁ : ∀ i < 32, (smear x 1).getMsbD i = true ↔ SetWithin x 2 i := fun _ => smear_spec h₀
  have h₂ : ∀ i < 32, (smear (smear x 1) 2).getMsbD i = true ↔ SetWithin x 4 i :=
    fun _ => smear_spec h₁
  have h₃ : ∀ i < 32, (smear (smear (smear x 1) 2) 4).getMsbD i = true ↔ SetWithin x 8 i :=
    fun _ => smear_spec h₂
  have h₄ : ∀ i < 32, (smear (smear (smear (smear x 1) 2) 4) 8).getMsbD i = true ↔
      SetWithin x 16 i := fun _ => smear_spec h₃
  rw [smear32, smear_spec h₄ hi]
  constructor
  · rintro ⟨j, hj, -, h⟩
    exact ⟨j, hj, h⟩
  · rintro ⟨j, hj, h⟩
    exact ⟨j, hj, by omega, h⟩

/-- Up to the first set bit there are zeros, from there on ones. -/
theorem not_smear32_eq {x : BitVec 32} (hL : x.getMsbD L = true)
    (hbefore : ∀ i < L, x.getMsbD i = false) : ~~~smear32 x = prefixMask 32 L := by
  apply eq_of_getMsbD_eq
  intro i hi
  rw [getMsbD_prefixMask hi, getMsbD_not]
  simp only [hi, decide_true, Bool.true_and]
  rcases Nat.lt_or_ge i L with h | h
  · have hfalse : (smear32 x).getMsbD i = false := by
      rw [← Bool.not_eq_true, getMsbD_smear32 hi]
      rintro ⟨j, hj, hset⟩
      rw [hbefore j (by omega)] at hset
      cases hset
    simp [hfalse, h]
  · have htrue : (smear32 x).getMsbD i = true := (getMsbD_smear32 hi).mpr ⟨L, h, hL⟩
    simp [htrue, Nat.not_lt.mpr h]

/-- The number of leading ones of a mask. -/
def prefixLen (m : BitVec w) : ℕ := w - Nat.log2 ((~~~m).toNat + 1)

@[simp] theorem prefixLen_prefixMask (hL : L ≤ w) : prefixLen (prefixMask w L) = L := by
  have hpos := Nat.two_pow_pos (w - L)
  rw [prefixLen, toNat_not_prefixMask hL, Nat.sub_add_cancel hpos, Nat.log2_two_pow]
  omega

theorem prefixLen_zero : prefixLen (0 : BitVec w) = 0 := by
  have h := prefixLen_prefixMask (Nat.zero_le w)
  rwa [prefixMask_zero] at h

end BitVec
