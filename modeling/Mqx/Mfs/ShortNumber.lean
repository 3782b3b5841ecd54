import Mathlib.Logic.Function.Iterate
import Mathlib.Tactic.IntervalCases
import Mathlib.Tactic.Ring
import Mqx.Mfs.ShortName

/-!
# The number of a short name

When a short name is taken, the number behind its tilde is increased. `mfsIncrementLfn` looks for
the tilde downwards from the eighth character, which is where the number of an alias ends if
its stem has six characters, and only then. Characters are unsigned.
-/

namespace Mqx.Mfs

/-- The first loop of `MFS_increment_lfn`, on the positions below `i`: where the tilde is, the
number behind it and the power of ten above it. -/
def readNumber (filename : ℤ → Byte) : ℕ → ℕ → ℕ → ℤ × ℕ × ℕ
  | 0, num, power => (-1, num, power)
  | i + 1, num, power =>
    if filename i = tildeChar then (i, num, power)
    else readNumber filename i
      ((num + power * ((filename i).toNat + (2 ^ 32 - 48))) % 2 ^ 32) (power * 10 % 2 ^ 32)

/-- The second loop, on the last `n` of the eight positions. -/
def writeNumber : ℕ → ℕ → ℕ → (ℤ → Byte) → ℤ → Byte
  | 0, _, _, filename => filename
  | n + 1, num, power, filename =>
    writeNumber n (num % (power / 10)) (power / 10)
      (Function.update filename (7 - n) (BitVec.ofNat 8 (num / (power / 10) % 256 + 48)))

def mfsIncrementLfn (filename : ℤ → Byte) : ℤ → Byte :=
  let r := readNumber filename 8 0 1
  let num := (r.2.1 + 1) % 2 ^ 32
  if num / r.2.2 ≥ 1 then
    writeNumber (8 - r.1).toNat num (r.2.2 * 10 % 2 ^ 32)
      (Function.update filename (r.1 - 1) tildeChar)
  else writeNumber (7 - r.1).toNat num r.2.2 filename

/-! ## Digits -/

def digitChar (k : ℕ) : Byte := BitVec.ofNat 8 (k + 48)

variable {m m' : ℤ → Byte} {t : ℕ}

theorem digit_of_mod (num : ℕ) {n j : ℕ} (h : j < n) :
    num % 10 ^ n / 10 ^ j % 10 = num / 10 ^ j % 10 := by
  obtain ⟨k, rfl⟩ := Nat.exists_eq_add_of_lt h
  rw [Nat.add_assoc, Nat.pow_add, Nat.mod_mul_right_div_self]
  exact Nat.mod_mod_of_dvd _ (Dvd.intro_left (10 ^ k) (Nat.pow_succ 10 k).symm)

/-- The loop writes the digits of a number that has at most `n` of them. -/
theorem writeNumber_spec (n : ℕ) : ∀ (num : ℕ) (m : ℤ → Byte), n ≤ 8 → num < 10 ^ n →
    (∀ j < n, writeNumber n num (10 ^ n) m (7 - j) = digitChar (num / 10 ^ j % 10)) ∧
      ∀ i : ℤ, (i < 8 - n ∨ 7 < i) → writeNumber n num (10 ^ n) m i = m i := by
  induction n with
  | zero => exact fun _ _ _ _ => ⟨fun j hj => absurd hj (Nat.not_lt_zero j), fun _ _ => rfl⟩
  | succ n ih =>
    intro num m hn hnum
    have hpow : 10 ^ (n + 1) / 10 = 10 ^ n := by
      rw [Nat.pow_succ, Nat.mul_div_cancel _ (by decide)]
    have hpos : 0 < 10 ^ n := Nat.pow_pos (by decide)
    obtain ⟨hdigits, hframe⟩ := ih (num % 10 ^ n)
      (Function.update m (7 - n) (BitVec.ofNat 8 (num / 10 ^ n % 256 + 48))) (by omega)
      (Nat.mod_lt _ hpos)
    have htop : num / 10 ^ n < 10 := by
      rw [Nat.div_lt_iff_lt_mul hpos, ← Nat.pow_succ']
      exact hnum
    rw [writeNumber, hpow]
    refine ⟨fun j hj => ?_, fun i hi => ?_⟩
    · rcases Nat.lt_succ_iff_lt_or_eq.mp hj with hlt | rfl
      · rw [hdigits j hlt, digit_of_mod num hlt]
      · rw [hframe _ (Or.inl (by omega)), Function.update_self, digitChar, Nat.mod_eq_of_lt htop,
          Nat.mod_eq_of_lt (htop.trans (by decide))]
    · rw [hframe i (by omega), Function.update_of_ne (by omega)]

/-- Any number leaves digits behind the first position that is written. -/
theorem writeNumber_tail {n : ℕ} (hn : n < 8) (num : ℕ) (m : ℤ → Byte) :
    (∀ j < n, writeNumber (n + 1) num (10 ^ (n + 1)) m (7 - j) = digitChar (num / 10 ^ j % 10)) ∧
      writeNumber (n + 1) num (10 ^ (n + 1)) m (7 - n) =
        BitVec.ofNat 8 (num / 10 ^ n % 256 + 48) ∧
      ∀ i : ℤ, (i < 7 - n ∨ 7 < i) → writeNumber (n + 1) num (10 ^ (n + 1)) m i = m i := by
  have hpow : 10 ^ (n + 1) / 10 = 10 ^ n := by
    rw [Nat.pow_succ, Nat.mul_div_cancel _ (by decide)]
  obtain ⟨hdigits, hframe⟩ := writeNumber_spec n (num % 10 ^ n)
    (Function.update m (7 - n) (BitVec.ofNat 8 (num / 10 ^ n % 256 + 48))) (by omega)
    (Nat.mod_lt _ (Nat.pow_pos (by decide)))
  refine ⟨fun j hj => ?_, ?_, fun i hi => ?_⟩
  · rw [writeNumber, hpow, hdigits j hj, digit_of_mod num hj]
  · rw [writeNumber, hpow, hframe _ (Or.inl (by omega)), Function.update_self]
  · rw [writeNumber, hpow, hframe i (by omega), Function.update_of_ne (by omega)]

/-! ## The number behind a tilde -/

/-- The last tilde of the eight positions is at `t`. -/
structure TildeAt (m : ℤ → Byte) (t : ℕ) : Prop where
  le : t ≤ 7
  tilde : m t = tildeChar
  last : ∀ i : ℕ, t < i → i ≤ 7 → m i ≠ tildeChar

/-- The digits of `n` behind the tilde, from the last position upwards. -/
def Digits (m : ℤ → Byte) (t n : ℕ) : Prop :=
  n < 10 ^ (7 - t) ∧ ∀ j < 7 - t, m ((7 - j : ℕ) : ℤ) = digitChar (n / 10 ^ j % 10)

theorem digitChar_toNat {k : ℕ} (h : k < 10) : (digitChar k).toNat = k + 48 := by
  rw [digitChar, BitVec.toNat_ofNat]
  omega

theorem digitChar_ne_tilde {k : ℕ} (h : k < 10) : digitChar k ≠ tildeChar := by
  intro heq
  have hnat := congrArg BitVec.toNat heq
  rw [digitChar_toNat h] at hnat
  have htilde : tildeChar.toNat = 126 := rfl
  omega

theorem readNumber_congr (n : ℕ) : ∀ {num power : ℕ}, (∀ i : ℕ, i < n → m i = m' i) →
    readNumber m n num power = readNumber m' n num power := by
  induction n with
  | zero => exact fun _ => rfl
  | succ n ih =>
    intro num power h
    rw [readNumber, readNumber, h n (by omega), ih fun i hi => h i (by omega)]

/-- Nothing in front of a tilde is looked at. -/
theorem readNumber_congr_above {b : ℕ} (htilde : m b = tildeChar) (n : ℕ) (hb : b < n) :
    ∀ {num power : ℕ}, (∀ i : ℕ, b ≤ i → i < n → m i = m' i) →
      readNumber m n num power = readNumber m' n num power := by
  induction n with
  | zero => omega
  | succ n ih =>
    intro num power h
    rw [readNumber, readNumber, ← h n (by omega) (by omega)]
    split
    · rfl
    · next hne =>
      have hlt : b < n := by
        rcases Nat.lt_succ_iff_lt_or_eq.mp hb with hlt | rfl
        · exact hlt
        · exact absurd htilde hne
      exact ih hlt fun i hlo hhi => h i hlo (by omega)

/-- One round of the first loop in front of the tilde. -/
theorem readNumber_step (h : TildeAt m t) {r : ℕ} (hr : t + r < 7) (num : ℕ) :
    readNumber m (8 - r) num (10 ^ r) =
      readNumber m (8 - (r + 1))
        ((num + 10 ^ r * ((m ((7 - r : ℕ) : ℤ)).toNat + (2 ^ 32 - 48))) % 2 ^ 32) (10 ^ (r + 1)) := by
  have hpow : 10 ^ (r + 1) < 2 ^ 32 :=
    lt_of_le_of_lt (Nat.pow_le_pow_right (by decide) (by omega : r + 1 ≤ 7)) (by decide)
  rw [show 8 - r = 7 - r + 1 by omega, readNumber, if_neg (h.last _ (by omega) (by omega)),
    ← Nat.pow_succ, Nat.mod_eq_of_lt hpow, show 8 - (r + 1) = 7 - r by omega]

theorem readNumber_stop (h : TildeAt m t) (num power : ℕ) :
    readNumber m (8 - (7 - t)) num power = (↑t, num, power) := by
  have hle := h.le
  rw [show 8 - (7 - t) = t + 1 by omega, readNumber, if_pos h.tilde]

/-- The first loop adds some multiple of the power to the number that it has. -/
theorem readNumber_tilde (h : TildeAt m t) (k : ℕ) : ∀ {r num : ℕ}, r + k = 7 - t →
    num < 2 ^ 32 → ∃ y, readNumber m (8 - r) num (10 ^ r) =
      (↑t, (num + 10 ^ r * y) % 2 ^ 32, 10 ^ (7 - t)) := by
  induction k with
  | zero =>
    intro r num hr hnum
    obtain rfl : r = 7 - t := hr
    exact ⟨0, by rw [readNumber_stop h, Nat.mul_zero, Nat.add_zero, Nat.mod_eq_of_lt hnum]⟩
  | succ k ih =>
    intro r num hr hnum
    obtain ⟨y, hy⟩ := @ih (r + 1)
      ((num + 10 ^ r * ((m ((7 - r : ℕ) : ℤ)).toNat + (2 ^ 32 - 48))) % 2 ^ 32) (by omega)
      (Nat.mod_lt _ (by decide))
    refine ⟨(m ((7 - r : ℕ) : ℤ)).toNat + (2 ^ 32 - 48) + 10 * y, ?_⟩
    have hsum : ∀ c, num + 10 ^ r * c + 10 ^ (r + 1) * y = num + 10 ^ r * (c + 10 * y) := by
      intro c
      ring
    rw [readNumber_step h (by omega), hy, Nat.mod_add_mod, hsum]

/-- The first loop reads a number that is written in digits. -/
theorem readNumber_digits (h : TildeAt m t) {n : ℕ} (hd : Digits m t n) :
    readNumber m 8 0 1 = (↑t, n, 10 ^ (7 - t)) := by
  have hloop : ∀ k r : ℕ, r + k = 7 - t →
      readNumber m (8 - r) (n % 10 ^ r) (10 ^ r) = (↑t, n, 10 ^ (7 - t)) := by
    intro k
    induction k with
    | zero =>
      intro r hr
      obtain rfl : r = 7 - t := hr
      rw [readNumber_stop h, Nat.mod_eq_of_lt hd.1]
    | succ k ih =>
      intro r hr
      have hdigit : n / 10 ^ r % 10 < 10 := Nat.mod_lt _ (by decide)
      have hlt : n % 10 ^ (r + 1) < 2 ^ 32 :=
        (Nat.mod_lt _ (Nat.pow_pos (by decide))).trans_le
          ((Nat.pow_le_pow_right (by decide) (by omega : r + 1 ≤ 7)).trans (by decide))
      rw [readNumber_step h (by omega), hd.2 r (by omega), digitChar_toNat hdigit,
        ← ih (r + 1) (by omega)]
      have hmod : n % 10 ^ (r + 1) = n % 10 ^ r + 10 ^ r * (n / 10 ^ r % 10) := Nat.mod_pow_succ
      have hsum : n % 10 ^ r + 10 ^ r * (n / 10 ^ r % 10 + 48 + (2 ^ 32 - 48)) =
          n % 10 ^ (r + 1) + 2 ^ 32 * 10 ^ r := by
        rw [hmod, show n / 10 ^ r % 10 + 48 + (2 ^ 32 - 48) = n / 10 ^ r % 10 + 2 ^ 32 by omega]
        ring
      rw [hsum, Nat.add_mul_mod_self_left, Nat.mod_eq_of_lt hlt]
  have hstart := hloop (7 - t) 0 (Nat.zero_add _)
  rwa [Nat.pow_zero, Nat.mod_one] at hstart

/-! ## One step -/

theorem mfsIncrementLfn_eq (ht : t ≤ 7) {num : ℕ}
    (hread : readNumber m 8 0 1 = (↑t, num, 10 ^ (7 - t))) : mfsIncrementLfn m =
      if (num + 1) % 2 ^ 32 / 10 ^ (7 - t) ≥ 1 then
        writeNumber (8 - t) ((num + 1) % 2 ^ 32) (10 ^ (8 - t))
          (Function.update m ((t : ℤ) - 1) tildeChar)
      else writeNumber (7 - t) ((num + 1) % 2 ^ 32) (10 ^ (7 - t)) m := by
  have hpow : 10 ^ (7 - t) * 10 % 2 ^ 32 = 10 ^ (8 - t) := by
    rw [← Nat.pow_succ, show 8 - t = 7 - t + 1 by omega]
    exact Nat.mod_eq_of_lt
      (lt_of_le_of_lt (Nat.pow_le_pow_right (by decide) (by omega : 7 - t + 1 ≤ 8)) (by decide))
  have hcount : ((7 : ℤ) - t).toNat = 7 - t ∧ ((8 : ℤ) - t).toNat = 8 - t := by omega
  rw [mfsIncrementLfn, hread]
  simp only [hpow, hcount.1, hcount.2]

theorem power_lt (ht : t ≤ 7) : 10 ^ (8 - t) < 2 ^ 32 :=
  lt_of_le_of_lt (Nat.pow_le_pow_right (by decide) (by omega : 8 - t ≤ 8)) (by decide)

/-- The digits that the second loop leaves behind a tilde. -/
theorem digits_of_writeNumber (ht : t ≤ 7) {n : ℕ} (hn : n < 10 ^ (7 - t))
    (htilde : m t = tildeChar) : TildeAt (writeNumber (7 - t) n (10 ^ (7 - t)) m) t ∧
      Digits (writeNumber (7 - t) n (10 ^ (7 - t)) m) t n ∧
      ∀ i : ℤ, (i ≤ t ∨ 7 < i) → writeNumber (7 - t) n (10 ^ (7 - t)) m i = m i := by
  obtain ⟨hdigits, hframe⟩ := writeNumber_spec (7 - t) n m (by omega) hn
  have hcast : ∀ j < 7 - t, ((7 - j : ℕ) : ℤ) = 7 - j := fun j hj => by omega
  have hd : Digits (writeNumber (7 - t) n (10 ^ (7 - t)) m) t n :=
    ⟨hn, fun j hj => by rw [hcast j hj, hdigits j hj]⟩
  have hkeep : ∀ i : ℤ, (i ≤ t ∨ 7 < i) → writeNumber (7 - t) n (10 ^ (7 - t)) m i = m i :=
    fun i hi => hframe i (by omega)
  refine ⟨⟨ht, (hkeep t (Or.inl le_rfl)).trans htilde, fun i hlo hhi => ?_⟩, hd, hkeep⟩
  obtain ⟨j, rfl⟩ : ∃ j, i = 7 - j := ⟨7 - i, by omega⟩
  rw [hd.2 j (by omega)]
  exact digitChar_ne_tilde (Nat.mod_lt _ (by decide))

/-- The number is increased in its place while it has no more digits. -/
theorem mfsIncrementLfn_digits (h : TildeAt m t) {n : ℕ} (hd : Digits m t n)
    (hn : n + 1 < 10 ^ (7 - t)) : TildeAt (mfsIncrementLfn m) t ∧
      Digits (mfsIncrementLfn m) t (n + 1) ∧
      ∀ i : ℤ, (i ≤ t ∨ 7 < i) → mfsIncrementLfn m i = m i := by
  have hpow : 10 ^ (7 - t) ≤ 10 ^ (8 - t) := Nat.pow_le_pow_right (by decide) (by omega)
  have hlt := power_lt h.le
  rw [mfsIncrementLfn_eq h.le (readNumber_digits h hd), Nat.mod_eq_of_lt (by omega),
    if_neg (by rw [Nat.div_eq_of_lt hn]; omega)]
  exact digits_of_writeNumber h.le hn h.tilde

/-- A number of nines moves the tilde one position down. -/
theorem mfsIncrementLfn_carry (h : TildeAt m (t + 1)) {n : ℕ} (hd : Digits m (t + 1) n)
    (hn : n + 1 = 10 ^ (7 - (t + 1))) : TildeAt (mfsIncrementLfn m) t ∧
      Digits (mfsIncrementLfn m) t (n + 1) ∧
      ∀ i : ℤ, (i < t ∨ 7 < i) → mfsIncrementLfn m i = m i := by
  have ht := h.le
  have hpow : 10 ^ (7 - (t + 1)) < 10 ^ (8 - (t + 1)) :=
    Nat.pow_lt_pow_right (by decide) (by omega)
  have hlt := power_lt ht
  have hpos : 0 < 10 ^ (7 - (t + 1)) := Nat.pow_pos (by decide)
  rw [mfsIncrementLfn_eq ht (readNumber_digits h hd), Nat.mod_eq_of_lt (by omega),
    if_pos (by rw [hn, Nat.div_self hpos])]
  rw [show 8 - (t + 1) = 7 - t by omega, show ((t + 1 : ℕ) : ℤ) - 1 = t by omega] at *
  obtain ⟨htilde, hdigits, hframe⟩ := digits_of_writeNumber (by omega : t ≤ 7)
    (by omega : n + 1 < 10 ^ (7 - t)) (Function.update_self (t : ℤ) tildeChar m)
  refine ⟨htilde, hdigits, fun i hi => ?_⟩
  rw [hframe i (by omega), Function.update_of_ne (by omega)]

/-! ## Runs -/

/-- A number behind a plain stem, and the bytes behind the eighth as in `m₀`. -/
structure Numbered (m₀ : ℤ → Byte) (n : ℕ) (m : ℤ → Byte) : Prop where
  place : ∃ t : ℕ, TildeAt m t ∧ Digits m t n ∧ ∀ i : ℕ, i < t → PlainChar (m i)
  frame : ∀ i : ℤ, 7 < i → m i = m₀ i

theorem Numbered.step {m₀ : ℤ → Byte} {n : ℕ} (h : Numbered m₀ n m) (hn : n + 1 < 10 ^ 6) :
    Numbered m₀ (n + 1) (mfsIncrementLfn m) := by
  obtain ⟨t, htilde, hd, hplain⟩ := h.place
  have hcases : n + 1 < 10 ^ (7 - t) ∨ n + 1 = 10 ^ (7 - t) := by
    have hlt := hd.1
    omega
  rcases hcases with hlt | heq
  · obtain ⟨htilde', hd', hframe⟩ := mfsIncrementLfn_digits htilde hd hlt
    refine ⟨⟨t, htilde', hd', fun i hi => ?_⟩, fun i hi => ?_⟩
    · rw [hframe i (by omega)]
      exact hplain i hi
    · rw [hframe i (Or.inr hi)]
      exact h.frame i hi
  · obtain ⟨t, rfl⟩ : ∃ u, t = u + 1 := by
      refine ⟨t - 1, ?_⟩
      rcases Nat.eq_zero_or_pos t with rfl | hpos
      · rw [heq] at hn
        exact absurd hn (by decide)
      · omega
    obtain ⟨htilde', hd', hframe⟩ := mfsIncrementLfn_carry htilde hd heq
    refine ⟨⟨t, htilde', hd', fun i hi => ?_⟩, fun i hi => ?_⟩
    · rw [hframe i (by omega)]
      exact hplain i (by omega)
    · rw [hframe i (Or.inr hi)]
      exact h.frame i hi

theorem Numbered.run {m₀ : ℤ → Byte} (h : Numbered m₀ 1 m) (k : ℕ) (hk : k < 999999) :
    Numbered m₀ (k + 1) (mfsIncrementLfn^[k] m) := by
  induction k with
  | zero => exact h
  | succ k ih =>
    rw [Function.iterate_succ_apply']
    exact (ih (by omega)).step (by omega)

/-- The first eight characters. -/
def headOf (m : ℤ → Byte) : List Byte := (List.range 8).map fun i : ℕ => m i

theorem Numbered.head_plain {m₀ : ℤ → Byte} {n : ℕ} (h : Numbered m₀ n m) :
    ∀ c ∈ headOf m, PlainChar c := by
  obtain ⟨t, htilde, hd, hplain⟩ := h.place
  intro c hc
  obtain ⟨i, hi, rfl⟩ := List.mem_map.mp hc
  have hi' := List.mem_range.mp hi
  rcases lt_trichotomy i t with hlt | rfl | hgt
  · exact hplain i hlt
  · rw [htilde.tilde]
    decide
  · obtain ⟨j, rfl⟩ : ∃ j, i = 7 - j := ⟨7 - i, by omega⟩
    rw [hd.2 j (by omega)]
    exact plainChar_digit (Nat.mod_lt _ (by decide))

/-- The number is read back from the first eight characters. -/
theorem Numbered.head_inj {m₀ : ℤ → Byte} {n n' : ℕ} (h : Numbered m₀ n m)
    (h' : Numbered m₀ n' m') (heq : headOf m = headOf m') : n = n' := by
  obtain ⟨t, htilde, hd, -⟩ := h.place
  obtain ⟨t', htilde', hd', -⟩ := h'.place
  have hchars : ∀ i : ℕ, i < 8 → m i = m' i := fun i hi =>
    List.map_inj_left.mp heq i (List.mem_range.mpr hi)
  have hread := readNumber_digits htilde hd
  rw [readNumber_congr 8 hchars, readNumber_digits htilde' hd'] at hread
  exact (congrArg (fun r => r.2.1) hread).symm

/-- The extension of a name with its dot. -/
def nameExtension (l : List Byte) : List Byte := l.dropWhile (· ≠ dotChar)

/-- A short name in memory and what increasing its number yields, fewer than 999999 times:
valid short names, no two alike, with the extension of the first. -/
def GivesAliases (m : ℤ → Byte) : Prop :=
  ∃ names : ℕ → List Byte,
    (∀ k < 999999, HoldsString (mfsIncrementLfn^[k] m) (names k) ∧
      mfsFilenameValid (names k) = true ∧ nameExtension (names k) = nameExtension (names 0)) ∧
    ∀ j k, j < k → k < 999999 → names j ≠ names k

/-! ## Aliases with a stem of six characters -/

theorem holdsString_storeString {l : List Byte} (h : ∀ c ∈ l, c ≠ 0) (m : ℤ → Byte) :
    HoldsString (storeString m l) l := by
  constructor
  · intro i hi
    have hstored : storeString m l i = l[i] := by
      rw [storeString, if_pos (by omega), Int.toNat_natCast, List.getD_eq_getElem?_getD,
        List.getElem?_eq_getElem hi, Option.getD_some]
    rw [hstored, List.getElem?_eq_getElem hi]
    exact ⟨rfl, h _ (List.getElem_mem hi)⟩
  · rw [storeString, if_pos (by omega), Int.toNat_natCast, List.getD_eq_getElem?_getD,
      List.getElem?_eq_none le_rfl, Option.getD_none]

/-- Behind eight plain characters the extension stays. -/
theorem Numbered.holds {m₀ : ℤ → Byte} {n : ℕ} {x e : List Byte} (h : Numbered m₀ n m)
    (hx : x.length = 8) (h₀ : HoldsString m₀ (x ++ e)) : HoldsString m (headOf m ++ e) := by
  have hhead : (headOf m).length = 8 := by rw [headOf, List.length_map, List.length_range]
  rw [HoldsString, List.length_append, hx] at h₀
  rw [HoldsString, List.length_append, hhead]
  constructor
  · intro i hi
    rcases Nat.lt_or_ge i 8 with hlt | hge
    · have hget : (headOf m)[i]? = some (m i) := by
        rw [headOf, List.getElem?_map, List.getElem?_range hlt]
        rfl
      rw [List.getElem?_append_left (by omega)]
      exact ⟨hget, (h.head_plain _ (List.mem_of_getElem? hget)).1⟩
    · have hbyte := h₀.1 i hi
      rw [List.getElem?_append_right (by omega), hx] at hbyte
      rw [List.getElem?_append_right (by omega), hhead, h.frame i (by omega)]
      exact hbyte
  · rw [h.frame _ (by omega)]
    exact h₀.2

theorem nameExtension_append {x e : List Byte} (hx : ∀ c ∈ x, PlainChar c) (he : IsExtension e) :
    nameExtension (x ++ e) = e := by
  have hdot : dotChar ∉ x := fun hmem => (hx dotChar hmem).2.1 rfl
  rcases he with rfl | ⟨e, rfl, -⟩
  · rw [nameExtension, List.append_nil, List.dropWhile_eq_nil_iff]
    intro c hc
    simpa using (hx c hc).2.1
  · exact dropWhile_stem hdot e

theorem alias_ne_zero {stem e : List Byte} (hplain : ∀ c ∈ stem, PlainChar c)
    (he : IsExtension e) : ∀ c ∈ stem ++ [tildeChar, 0x31] ++ e, c ≠ 0 := by
  have hnumber : ∀ c ∈ [tildeChar, 0x31], c ≠ 0 := by decide
  refine List.forall_mem_append.mpr ⟨List.forall_mem_append.mpr
    ⟨fun c hc => (hplain c hc).1, hnumber⟩, ?_⟩
  rcases he with rfl | ⟨e, rfl, -, hext⟩
  · exact List.forall_mem_nil _
  · exact List.forall_mem_cons.mpr ⟨by decide, fun c hc => (hext c hc).1⟩

theorem givesAliases_of_stem {stem e : List Byte} (hlen : stem.length = 6)
    (hplain : ∀ c ∈ stem, PlainChar c) (he : IsExtension e) (buffer : ℤ → Byte) :
    GivesAliases (storeString buffer (stem ++ [tildeChar, 0x31] ++ e)) := by
  obtain ⟨m, hm⟩ : ∃ m, storeString buffer (stem ++ [tildeChar, 0x31] ++ e) = m := ⟨_, rfl⟩
  have hne := alias_ne_zero hplain he
  have hholds := holdsString_storeString hne buffer
  rw [hm] at hholds ⊢
  have hchar : ∀ i : ℕ, i < 8 → (stem ++ [tildeChar, 0x31])[i]? = some (m i) := by
    intro i hi
    have hi' : i < (stem ++ [tildeChar, 0x31]).length := by simpa [hlen] using hi
    have hleft : (stem ++ [tildeChar, 0x31] ++ e)[i]? = (stem ++ [tildeChar, 0x31])[i]? :=
      List.getElem?_append_left hi'
    rw [← hleft]
    exact (hholds.1 i (by rw [List.length_append]; omega)).1
  have hnumbered : Numbered m 1 m := by
    have htilde : m (6 : ℕ) = tildeChar := by
      have h := hchar 6 (by decide)
      rw [List.getElem?_append_right (by omega), hlen] at h
      exact (Option.some.inj h).symm
    have hone : m (7 : ℕ) = digitChar 1 := by
      have h := hchar 7 (by decide)
      rw [List.getElem?_append_right (by omega), hlen] at h
      exact (Option.some.inj h).symm
    refine ⟨⟨6, ⟨by decide, htilde, fun i hlo hhi => ?_⟩, ⟨by decide, fun j hj => ?_⟩,
      fun i hi => ?_⟩, fun _ _ => rfl⟩
    · obtain rfl : i = 7 := by omega
      rw [hone]
      decide
    · obtain rfl : j = 0 := by omega
      exact hone
    · have h := hchar i (by omega)
      rw [List.getElem?_append_left (by omega)] at h
      exact hplain _ (List.mem_of_getElem? h)
  refine ⟨fun k => headOf (mfsIncrementLfn^[k] m) ++ e, fun k hk => ?_, fun j k hjk hk heq => ?_⟩
  · have hrun := hnumbered.run k hk
    have hhead : (headOf (mfsIncrementLfn^[k] m)).length = 8 := by
      rw [headOf, List.length_map, List.length_range]
    refine ⟨hrun.holds (by simp [hlen]) hholds, ?_, ?_⟩
    · exact mfsFilenameValid_of_parts hrun.head_plain (by omega) (by omega) he
    · rw [nameExtension_append hrun.head_plain he]
      exact (nameExtension_append hnumbered.head_plain he).symm
  · have hheads := List.append_cancel_right heq
    have hnum := (hnumbered.run j (by omega)).head_inj (hnumbered.run k hk) hheads
    omega

/-! ## Shorter stems -/

theorem readNumber_start (h : TildeAt m t) : ∃ num < 2 ^ 32,
    readNumber m 8 0 1 = (↑t, num, 10 ^ (7 - t)) ∧ (t = 7 → num = 0) ∧
      (t < 7 → ∃ y, num = ((m 7).toNat + (2 ^ 32 - 48) + 10 * y) % 2 ^ 32) := by
  rcases Nat.eq_or_lt_of_le h.le with rfl | hlt
  · exact ⟨0, by decide, readNumber_stop h 0 1, fun _ => rfl, fun hlt => absurd hlt (lt_irrefl 7)⟩
  · have hstep := readNumber_step h (by omega : t + 0 < 7) 0
    obtain ⟨y, hy⟩ := @readNumber_tilde m t h (6 - t) 1
      ((0 + 10 ^ 0 * ((m ((7 - 0 : ℕ) : ℤ)).toNat + (2 ^ 32 - 48))) % 2 ^ 32) (by omega)
      (Nat.mod_lt _ (by decide))
    refine ⟨_, Nat.mod_lt _ (by decide), hstep.trans hy, fun heq => by omega, fun _ => ⟨y, ?_⟩⟩
    rw [Nat.mod_add_mod, Nat.zero_add, Nat.pow_zero, Nat.one_mul, Nat.pow_one]
    rfl

/-- What a step does to any characters that have a tilde: it writes from some position on, which
is the one behind the tilde or, when the tilde is moved down, its own. -/
structure Rewrites (m : ℤ → Byte) (t s num : ℕ) (m' : ℤ → Byte) : Prop where
  start : s = t ∨ s = t + 1
  le : s ≤ 7
  above : ∀ i : ℤ, 7 < i → m' i = m i
  below : ∀ i : ℕ, i < s → m' i = m i ∨ m' i = tildeChar
  digits : ∀ i : ℕ, s < i → i ≤ 7 → ∃ k < 10, m' i = digitChar k
  first : s = t + 1 → ∃ k < 10, m' s = digitChar k
  carry : s = t → m' s = BitVec.ofNat 8 ((num + 1) % 2 ^ 32 / 10 ^ (7 - t) % 256 + 48)
  last : m' 7 ≠ m 7

theorem mfsIncrementLfn_rewrites (h : TildeAt m t) : ∃ s num,
    readNumber m 8 0 1 = (↑t, num, 10 ^ (7 - t)) ∧ Rewrites m t s num (mfsIncrementLfn m) := by
  have ht := h.le
  obtain ⟨num, hlt, hread, hzero, hsum⟩ := readNumber_start h
  -- the last digit is that of the next number, which has the other parity
  have hlast : t < 7 → m 7 ≠ digitChar ((num + 1) % 2 ^ 32 % 10) := by
    intro ht' heq
    obtain ⟨y, hy⟩ := hsum ht'
    rw [heq, digitChar_toNat (Nat.mod_lt _ (by decide))] at hy
    omega
  rw [mfsIncrementLfn_eq ht hread]
  by_cases hcarry : (num + 1) % 2 ^ 32 / 10 ^ (7 - t) ≥ 1
  · rw [if_pos hcarry, show 8 - t = 7 - t + 1 by omega]
    obtain ⟨hdigits, hfirst, hframe⟩ := writeNumber_tail (by omega : 7 - t < 8)
      ((num + 1) % 2 ^ 32) (Function.update m ((t : ℤ) - 1) tildeChar)
    rw [show (7 : ℤ) - (7 - t : ℕ) = t by omega] at hfirst hframe
    refine ⟨t, num, hread, Or.inl rfl, ht, fun i hi => ?_, fun i hi => ?_, fun i hlo hhi => ?_,
      fun heq => absurd heq (by omega), fun _ => hfirst, ?_⟩
    · rw [hframe i (Or.inr hi), Function.update_of_ne (by omega)]
    · rw [hframe i (Or.inl (by omega)), Function.update_apply]
      split
      · exact Or.inr rfl
      · exact Or.inl rfl
    · obtain ⟨j, rfl⟩ : ∃ j, i = 7 - j := ⟨7 - i, by omega⟩
      refine ⟨(num + 1) % 2 ^ 32 / 10 ^ j % 10, Nat.mod_lt _ (by decide), ?_⟩
      rw [← hdigits j (by omega), show ((7 - j : ℕ) : ℤ) = 7 - j by omega]
    · rcases Nat.eq_or_lt_of_le ht with rfl | hlt'
      · have htilde : m 7 = tildeChar := h.tilde
        rw [htilde]
        intro heq
        have hone := hfirst.symm.trans heq
        rw [hzero rfl] at hone
        exact absurd hone (by decide)
      · intro heq
        have hseven := hdigits 0 (by omega)
        rw [Nat.pow_zero, Nat.div_one] at hseven
        exact hlast hlt' (heq.symm.trans hseven)
  · have hsmall : (num + 1) % 2 ^ 32 < 10 ^ (7 - t) := by
      by_contra hge
      exact hcarry ((Nat.one_le_div_iff (Nat.pow_pos (by decide))).mpr (not_lt.mp hge))
    have hlt' : t < 7 := by
      rcases Nat.eq_or_lt_of_le ht with rfl | hlt'
      · rw [hzero rfl] at hsmall
        exact absurd hsmall (by decide)
      · exact hlt'
    rw [if_neg hcarry]
    obtain ⟨-, hd, hframe⟩ := digits_of_writeNumber ht hsmall h.tilde
    have hdigit : ∀ i : ℕ, t < i → i ≤ 7 → ∃ k < 10,
        writeNumber (7 - t) ((num + 1) % 2 ^ 32) (10 ^ (7 - t)) m i = digitChar k := by
      intro i hlo hhi
      obtain ⟨j, rfl⟩ : ∃ j, i = 7 - j := ⟨7 - i, by omega⟩
      exact ⟨_, Nat.mod_lt _ (by decide), hd.2 j (by omega)⟩
    refine ⟨t + 1, num, hread, Or.inr rfl, hlt', fun i hi => hframe i (Or.inr hi),
      fun i hi => Or.inl (hframe i (Or.inl (by omega))), fun i hlo hhi => hdigit i (by omega) hhi,
      fun _ => hdigit (t + 1) (by omega) hlt', fun heq => absurd heq (by omega), fun heq => ?_⟩
    have hseven := hd.2 0 (by omega)
    rw [Nat.pow_zero, Nat.div_one] at hseven
    exact hlast hlt' (heq.symm.trans hseven)

theorem exists_tildeAt {b : ℕ} (hb : b ≤ 7) (h : m b = tildeChar) : ∃ t, b ≤ t ∧ TildeAt m t := by
  obtain ⟨t, ht⟩ : ∃ t, Nat.findGreatest (fun i : ℕ => m i = tildeChar) 7 = t := ⟨_, rfl⟩
  have hge : b ≤ t := ht ▸ Nat.le_findGreatest hb h
  refine ⟨t, hge, ht ▸ Nat.findGreatest_le 7, ?_, fun i hlo hhi => ?_⟩
  · have hspec := Nat.findGreatest_spec (P := fun i : ℕ => m i = tildeChar) hb h
    rwa [ht] at hspec
  · exact Nat.findGreatest_is_greatest (ht.symm ▸ hlo) hhi

theorem HoldsString.length_le {l l' : List Byte} (h : HoldsString m l) (h' : HoldsString m l') :
    l.length ≤ l'.length := by
  by_contra hlt
  exact (h.1 l'.length (not_le.mp hlt)).2 h'.2

theorem HoldsString.unique {l l' : List Byte} (h : HoldsString m l) (h' : HoldsString m l') :
    l = l' := by
  have hlen : l.length = l'.length := (h.length_le h').antisymm (h'.length_le h)
  refine List.ext_getElem? fun i => ?_
  rcases Nat.lt_or_ge i l.length with hlt | hge
  · rw [(h.1 i hlt).1, (h'.1 i (hlen ▸ hlt)).1]
  · rw [List.getElem?_eq_none hge, List.getElem?_eq_none (hlen ▸ hge)]

/-- The buffers that hold zeros, as characters. -/
def zeroChars : ℤ → Byte := fun _ => 0x30

/-- An alias with a stem of `b` characters in such a buffer. -/
structure ShortAlias (m : ℤ → Byte) (stem e : List Byte) : Prop where
  length : stem.length ≤ 5
  plain : ∀ c ∈ stem, PlainChar c
  extension : IsExtension e
  holds : HoldsString m (stem ++ [tildeChar, 0x31] ++ e)
  above : ∀ i : ℕ, stem.length + 2 + e.length < i → m i = 0x30

theorem shortAlias {stem e : List Byte} (hlen : stem.length ≤ 5)
    (hplain : ∀ c ∈ stem, PlainChar c) (he : IsExtension e) :
    ShortAlias (storeString zeroChars (stem ++ [tildeChar, 0x31] ++ e)) stem e := by
  refine ⟨hlen, hplain, he, holdsString_storeString (alias_ne_zero hplain he) _, fun i hi => ?_⟩
  rw [storeString, if_neg, zeroChars]
  simp only [List.length_append, List.length_cons, List.length_nil]
  omega

namespace ShortAlias

variable {stem e : List Byte}

theorem char (h : ShortAlias m stem e) {i : ℕ} (hi : i < stem.length + 2 + e.length) :
    (stem ++ [tildeChar, 0x31] ++ e)[i]? = some (m i) ∧ m i ≠ 0 := by
  refine h.holds.1 i ?_
  rw [List.length_append, List.length_append]
  exact hi

theorem zero (h : ShortAlias m stem e) : m ↑(stem.length + 2 + e.length) = 0 := by
  have hlen : (stem ++ [tildeChar, 0x31] ++ e).length = stem.length + 2 + e.length := by
    rw [List.length_append, List.length_append]
    rfl
  rw [← hlen]
  exact h.holds.2

/-- The string ends at the only zero. -/
theorem eq_of_zero (h : ShortAlias m stem e) {i : ℕ} (hzero : m i = 0) :
    i = stem.length + 2 + e.length := by
  rcases lt_trichotomy i (stem.length + 2 + e.length) with hlt | heq | hgt
  · exact absurd hzero (h.char hlt).2
  · exact heq
  · rw [h.above i hgt] at hzero
    exact absurd hzero (by decide)

theorem tail_char (h : ShortAlias m stem e) {i : ℕ} (hi : i < e.length) :
    e[i]? = some (m ↑(stem.length + 2 + i)) := by
  rw [← (h.char (by omega : stem.length + 2 + i < stem.length + 2 + e.length)).1,
    List.getElem?_append_right (by simp)]
  congr 1
  simp

/-- The only dot is that of the extension. -/
theorem eq_of_dot (h : ShortAlias m stem e) {i : ℕ} (hdot : m i = dotChar) :
    i = stem.length + 2 := by
  have hstem : ∀ c ∈ stem ++ [tildeChar, 0x31], c ≠ dotChar := by
    have hnumber : ∀ c ∈ [tildeChar, 0x31], c ≠ dotChar := by decide
    exact List.forall_mem_append.mpr ⟨fun c hc => (h.plain c hc).2.1, hnumber⟩
  rcases lt_trichotomy i (stem.length + 2 + e.length) with hlt | rfl | hgt
  · rcases Nat.lt_or_ge i (stem.length + 2) with hlow | hhigh
    · have hchar := (h.char hlt).1
      rw [hdot, List.getElem?_append_left (by simpa using hlow)] at hchar
      exact absurd rfl (hstem _ (List.mem_of_getElem? hchar))
    · obtain ⟨j, rfl⟩ := Nat.exists_eq_add_of_le hhigh
      have hchar := h.tail_char (by omega : j < e.length)
      rw [hdot] at hchar
      rcases h.extension with rfl | ⟨e, rfl, -, hplain⟩
      · cases hchar
      · cases j with
        | zero => rfl
        | succ j => exact absurd rfl (hplain _ (List.mem_of_getElem? hchar)).2.1
  · rw [h.zero] at hdot
    exact absurd hdot (by decide)
  · rw [h.above i hgt] at hdot
    exact absurd hdot (by decide)

theorem tilde_lt (h : ShortAlias m stem e) {i : ℕ} (htilde : m i = tildeChar) :
    i < stem.length + 2 + e.length := by
  rcases lt_trichotomy i (stem.length + 2 + e.length) with hlt | rfl | hgt
  · exact hlt
  · rw [h.zero] at htilde
    exact absurd htilde (by decide)
  · rw [h.above i hgt] at htilde
    exact absurd htilde (by decide)

theorem tilde (h : ShortAlias m stem e) : m ↑stem.length = tildeChar := by
  have hchar := (h.char (by omega : stem.length < stem.length + 2 + e.length)).1
  rw [List.append_assoc, List.getElem?_append_right le_rfl, Nat.sub_self] at hchar
  exact (Option.some.inj hchar).symm

/-- After a step the string ends where it did, behind the eighth character, unless the first
character that is written is the zero. -/
theorem end_of_rewrites (h : ShortAlias m stem e) {s num : ℕ} (ht : TildeAt m t)
    (hw : Rewrites m t s num m') {q : ℕ} (hzero : m' q = 0) :
    (q = s ∧ s = t) ∨ (8 ≤ q ∧ q = stem.length + 2 + e.length) := by
  have hlt := h.tilde_lt ht.tilde
  rcases Nat.lt_or_ge 7 q with hhigh | hlow
  · rw [hw.above q (by omega)] at hzero
    exact Or.inr ⟨hhigh, h.eq_of_zero hzero⟩
  · rcases lt_trichotomy q s with hbelow | rfl | habove
    · have hstart := hw.start
      rcases hw.below q hbelow with hkeep | htilde
      · rw [hkeep] at hzero
        have hq := h.eq_of_zero hzero
        omega
      · rw [hzero] at htilde
        exact absurd htilde (by decide)
    · rcases hw.start with heq | heq
      · exact Or.inl ⟨rfl, heq⟩
      · obtain ⟨k, hk, hdigit⟩ := hw.first heq
        rw [hzero] at hdigit
        exact absurd hdigit.symm (plainChar_digit hk).1
    · obtain ⟨k, hk, hdigit⟩ := hw.digits q habove hlow
      rw [hzero] at hdigit
      exact absurd hdigit.symm (plainChar_digit hk).1

/-- No step leaves the dot in place and the string after it. -/
theorem extension_lost {x e : List Byte} (h : ShortAlias m stem (dotChar :: e)) {s num : ℕ}
    (ht : TildeAt m t) (hw : Rewrites m t s num m') : ¬HoldsString m' (x ++ dotChar :: e) := by
  intro hs
  have hlen : (x ++ dotChar :: e).length = x.length + (1 + e.length) := by
    rw [List.length_append, List.length_cons, Nat.add_comm e.length]
  have hdot : m' x.length = dotChar := by
    have hchar := (hs.1 x.length (by omega)).1
    rw [List.getElem?_append_right le_rfl, Nat.sub_self] at hchar
    exact (Option.some.inj hchar).symm
  have hend := hs.2
  rw [hlen] at hend
  have hstop := h.end_of_rewrites ht hw hend
  have hlt := h.tilde_lt ht.tilde
  have hshort := h.length
  have hle := hw.le
  rw [List.length_cons] at hstop hlt
  have hdigit : ∀ k < 10, m' x.length ≠ digitChar k := fun k hk heq =>
    (plainChar_digit hk).2.1 (heq.symm.trans hdot)
  rcases lt_trichotomy x.length s with hbelow | heq | habove
  · -- the dot is the old one, so the character in the last place is of the extension
    have hold : m x.length = dotChar := by
      rcases hw.below _ hbelow with hkeep | htilde
      · exact hkeep.symm.trans hdot
      · exact absurd (hdot.symm.trans htilde) (by decide)
    have hplace := h.eq_of_dot hold
    obtain ⟨j, hj⟩ : ∃ j, x.length + (j + 1) = 7 := ⟨6 - x.length, by omega⟩
    have hnew := (hs.1 7 (by omega)).1
    have htail := h.tail_char (by rw [List.length_cons]; omega : j + 1 < (dotChar :: e).length)
    rw [← hplace, hj] at htail
    rw [← hj, List.getElem?_append_right (by omega), Nat.add_sub_cancel_left, htail, hj] at hnew
    exact hw.last (Option.some.inj hnew).symm
  · rcases hw.start with hs' | hs'
    · have hfirst := h.tail_char (by rw [List.length_cons]; omega : 0 < (dotChar :: e).length)
      have htilde := ht.tilde
      rw [show t = stem.length + 2 + 0 by omega, ← Option.some.inj hfirst] at htilde
      exact absurd htilde (by decide)
    · obtain ⟨k, hk, hfirst⟩ := hw.first hs'
      exact hdigit k hk (heq ▸ hfirst)
  · rcases Nat.lt_or_ge 7 x.length with hhigh | hlow
    · rw [hw.above _ (by omega)] at hdot
      have hplace := h.eq_of_dot hdot
      omega
    · obtain ⟨k, hk, hd⟩ := hw.digits _ habove hlow
      exact hdigit k hk hd

theorem one (h : ShortAlias m stem e) : m ↑(stem.length + 1) = 0x31 := by
  have hchar := (h.char (by omega : stem.length + 1 < stem.length + 2 + e.length)).1
  rw [List.append_assoc, List.getElem?_append_right (by omega), Nat.add_sub_cancel_left] at hchar
  exact (Option.some.inj hchar).symm

/-- Behind the stem, names without an extension are alike. -/
theorem congr_above {stem' : List Byte} (h : ShortAlias m stem []) (h' : ShortAlias m' stem' [])
    (hlen : stem.length = stem'.length) {i : ℕ} (hi : stem.length ≤ i) : m i = m' i := by
  have hzero := h.zero
  have hzero' := h'.zero
  have habove := h.above i
  have habove' := h'.above i
  have hone := h.one
  have hone' := h'.one
  have htilde := h.tilde
  have htilde' := h'.tilde
  rw [List.length_nil, Nat.add_zero] at hzero hzero' habove habove'
  rw [← hlen] at hzero' hone' htilde' habove'
  obtain ⟨k, rfl⟩ := Nat.exists_eq_add_of_le hi
  rcases k with _ | _ | _ | k
  · exact htilde.trans htilde'.symm
  · exact hone.trans hone'.symm
  · exact hzero.trans hzero'.symm
  · exact (habove (by omega)).trans (habove' (by omega)).symm

/-- A name without an extension behind a stem of `b` letters. -/
def lettersAlias (b : ℕ) : ℤ → Byte :=
  storeString zeroChars (List.replicate b 0x41 ++ [tildeChar, 0x31] ++ [])

/-- The zero behind the name makes the number wrap around; its first digit never becomes the
end of the string. -/
theorem lettersAlias_carry : ∀ b < 6, BitVec.ofNat 8
    (((readNumber (lettersAlias b) 8 0 1).2.1 + 1) % 2 ^ 32 / 10 ^ (7 - b) % 256 + 48) ≠ 0 := by
  decide

theorem carry_ne_zero (h : ShortAlias m stem []) {num : ℕ}
    (hread : readNumber m 8 0 1 = (↑stem.length, num, 10 ^ (7 - stem.length))) :
    BitVec.ofNat 8 ((num + 1) % 2 ^ 32 / 10 ^ (7 - stem.length) % 256 + 48) ≠ 0 := by
  have hletters := @shortAlias (List.replicate stem.length 0x41) [] (by simpa using h.length)
    (by
      intro c hc
      rw [List.eq_of_mem_replicate hc]
      decide) (Or.inl rfl)
  have hlen := h.length
  have hcongr : readNumber m 8 0 1 = readNumber (lettersAlias stem.length) 8 0 1 :=
    readNumber_congr_above h.tilde 8 (by omega) fun i hlo _ =>
      h.congr_above hletters List.length_replicate.symm hlo
  have hcarry := lettersAlias_carry stem.length (by omega)
  rwa [← hcongr, hread] at hcarry

end ShortAlias

/-- With a shorter stem the first increase already fails. -/
theorem ShortAlias.not_givesAliases {stem e : List Byte} (h : ShortAlias m stem e) :
    ¬GivesAliases m := by
  rintro ⟨names, hnames, -⟩
  obtain ⟨hfirst, -, -⟩ := hnames 0 (by decide)
  obtain ⟨hsecond, -, hkeep⟩ := hnames 1 (by decide)
  rw [Function.iterate_one] at hsecond
  have hzero : names 0 = stem ++ [tildeChar, 0x31] ++ e := hfirst.unique h.holds
  have hplain : ∀ c ∈ stem ++ [tildeChar, 0x31], PlainChar c := by
    have hnumber : ∀ c ∈ [tildeChar, 0x31], PlainChar c := by decide
    exact List.forall_mem_append.mpr ⟨h.plain, hnumber⟩
  rw [hzero, nameExtension_append hplain h.extension] at hkeep
  obtain ⟨t, hge, ht⟩ := exists_tildeAt (h.length.trans (by decide)) h.tilde
  obtain ⟨s, num, hread, hw⟩ := mfsIncrementLfn_rewrites ht
  have hsplit := List.takeWhile_append_dropWhile (p := fun c => decide (c ≠ dotChar)) (l := names 1)
  rw [← nameExtension, hkeep] at hsplit
  rcases h.extension with rfl | ⟨e, rfl, -⟩
  · have hlt := h.tilde_lt ht.tilde
    have hshort := h.length
    rw [List.length_nil] at hlt
    rcases h.end_of_rewrites ht hw hsecond.2 with ⟨hend, hcarry⟩ | ⟨hhigh, hend⟩
    · obtain rfl : t = stem.length := by
        by_contra hne
        have hone := h.one
        rw [show stem.length + 1 = t by omega, ht.tilde] at hone
        exact absurd hone (by decide)
      have hlast := hsecond.2
      rw [hend, hw.carry hcarry] at hlast
      exact h.carry_ne_zero hread hlast
    · rw [List.length_nil] at hend
      omega
  · rw [← hsplit] at hsecond
    exact h.extension_lost ht hw hsecond

/-! ## Aliases of long names -/

/-- The alias of a valid long name is a valid short name. Its numbers give further aliases for
whatever was in the buffer if and only if the name has six characters, blanks and dots not
counted, in front of its extension (or no alias is made for lack of memory). -/
theorem short_alias (mem : Bool) (name : CString) (h : mfsIsValidLfn name.chars = true) :
    (∀ buffer, (mfsLfnToSfn mem name.chars buffer).1 = .noError →
      ∃ l, HoldsString (mfsLfnToSfn mem name.chars buffer).2 l ∧ mfsFilenameValid l = true) ∧
    ((∀ buffer, (mfsLfnToSfn mem name.chars buffer).1 = .noError →
      GivesAliases (mfsLfnToSfn mem name.chars buffer).2) ↔
        mem = false ∨ 6 ≤ stemLength name.chars) := by
  obtain ⟨stem, e, heq, hlen, hplain, he⟩ := shortName_parts h
  rw [stemLength_eq h] at hlen
  cases mem with
  | false =>
    have herr : ∀ buffer, (mfsLfnToSfn false name.chars buffer).1 ≠ .noError := by
      intro buffer hno
      have hfull : MfsError.insufficientMemory = .noError := hno
      cases hfull
    exact ⟨fun buffer hno => absurd hno (herr buffer),
      iff_of_true (fun buffer hno => absurd hno (herr buffer)) (Or.inl rfl)⟩
  | true =>
    have hmem : ∀ buffer, mfsLfnToSfn true name.chars buffer =
        (.noError, storeString buffer (stem ++ [tildeChar, 0x31] ++ e)) := fun buffer => by
      rw [mfsLfnToSfn, if_neg (by decide), heq]
    refine ⟨fun buffer _ => ⟨shortName name.chars, ?_, shortName_valid h⟩, ?_⟩
    · rw [hmem, heq]
      exact holdsString_storeString (alias_ne_zero hplain he) buffer
    · rcases Nat.lt_or_ge (stemLength name.chars) 6 with hlt | hge
      · refine iff_of_false (fun hall => ?_) ?_
        · have hgives := hall zeroChars (congrArg Prod.fst (hmem zeroChars))
          rw [hmem] at hgives
          exact (shortAlias (by omega) hplain he).not_givesAliases hgives
        · rintro (hmem | hge)
          · cases hmem
          · omega
      · refine iff_of_true (fun buffer _ => ?_) (Or.inr hge)
        rw [hmem]
        exact givesAliases_of_stem (by omega) hplain he buffer

/-- `document.txt`. -/
def documentName : CString where
  chars := [0x64, 0x6F, 0x63, 0x75, 0x6D, 0x65, 0x6E, 0x74, 0x2E, 0x74, 0x78, 0x74]
  noNul := by decide

theorem short_alias_document :
    GivesAliases (mfsLfnToSfn true documentName.chars zeroChars).2 :=
  (short_alias true documentName (by decide)).2.mpr (Or.inr (by decide)) zeroChars rfl

/-- `a b.txt`. -/
def shortStemName : CString where
  chars := [0x61, 0x20, 0x62, 0x2E, 0x74, 0x78, 0x74]
  noNul := by decide

/-- The number of `AB~1.TXT` is increased over its extension. -/
theorem short_alias_overwritten : mfsIsValidLfn shortStemName.chars = true ∧
    (mfsLfnToSfn true shortStemName.chars zeroChars).1 = .noError ∧
    ¬GivesAliases (mfsLfnToSfn true shortStemName.chars zeroChars).2 := by
  have hname : shortName shortStemName.chars =
      [0x41, 0x42] ++ [tildeChar, 0x31] ++ [0x2E, 0x54, 0x58, 0x54] := by decide
  refine ⟨by decide, rfl, ?_⟩
  rw [mfsLfnToSfn, if_neg (by decide), hname]
  exact (shortAlias (by decide) (by decide)
    (Or.inr ⟨[0x54, 0x58, 0x54], rfl, by decide, by decide⟩)).not_givesAliases

end Mqx.Mfs
