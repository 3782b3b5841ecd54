import Mathlib.Data.Nat.Digits.Lemmas

/-!
# Numerals

Numbers written in a base with one character for each digit, the high digits first.
-/

variable {α : Type*} {base acc n v : ℕ} {digit : α → Option ℕ} {char : ℕ → α} {c : α} {l k : List α}

/-- The number that a numeral stands for behind the digits read so far. -/
def readNumeral (base : ℕ) (digit : α → Option ℕ) (acc : ℕ) : List α → Option ℕ
  | [] => some acc
  | c :: l => (digit c).bind fun d => readNumeral base digit (acc * base + d) l

/-- The numeral of a number without leading zeros. -/
def printNumeral (base : ℕ) (char : ℕ → α) (n : ℕ) : List α :=
  if n = 0 then [char 0] else (Nat.digits base n).reverse.map char

theorem readNumeral_cons (h : readNumeral base digit acc (c :: l) = some v) :
    ∃ d, digit c = some d ∧ readNumeral base digit (acc * base + d) l = some v :=
  Option.bind_eq_some_iff.mp h

theorem readNumeral_append :
    readNumeral base digit acc (l ++ k) =
      (readNumeral base digit acc l).bind fun v => readNumeral base digit v k := by
  induction l generalizing acc with
  | nil => rfl
  | cons c l ih =>
    rw [List.cons_append, readNumeral, readNumeral]
    cases digit c with
    | none => rfl
    | some d => exact ih

theorem le_of_readNumeral (hbase : 0 < base) (h : readNumeral base digit acc l = some v) :
    acc ≤ v := by
  induction l generalizing acc with
  | nil => exact (Option.some.inj h).le
  | cons c l ih =>
    obtain ⟨d, -, hrest⟩ := readNumeral_cons h
    have hle := ih hrest
    have hmul := Nat.le_mul_of_pos_right acc hbase
    omega

/-- Digits behind a number multiply it. -/
theorem mul_pow_le_of_readNumeral (h : readNumeral base digit acc l = some v) :
    acc * base ^ l.length ≤ v := by
  induction l generalizing acc with
  | nil =>
    rw [List.length_nil, Nat.pow_zero, Nat.mul_one]
    exact (Option.some.inj h).le
  | cons c l ih =>
    obtain ⟨d, -, hrest⟩ := readNumeral_cons h
    calc acc * base ^ (c :: l).length
        = acc * base * base ^ l.length := by rw [List.length_cons, Nat.pow_succ', Nat.mul_assoc]
      _ ≤ (acc * base + d) * base ^ l.length := Nat.mul_le_mul_right _ (Nat.le_add_right _ _)
      _ ≤ v := ih hrest

theorem isSome_of_readNumeral (h : readNumeral base digit acc l = some v) :
    ∀ c ∈ l, (digit c).isSome := by
  induction l generalizing acc with
  | nil => simp
  | cons c l ih =>
    obtain ⟨d, hd, hrest⟩ := readNumeral_cons h
    rw [List.forall_mem_cons, hd]
    exact ⟨rfl, ih hrest⟩

/-- A numeral of digits only has a value. -/
theorem readNumeral_isSome (h : ∀ c ∈ l, (digit c).isSome) (acc : ℕ) :
    ∃ v, readNumeral base digit acc l = some v := by
  induction l generalizing acc with
  | nil => exact ⟨acc, rfl⟩
  | cons c l ih =>
    obtain ⟨hc, hl⟩ := List.forall_mem_cons.mp h
    obtain ⟨d, hd⟩ := Option.isSome_iff_exists.mp hc
    obtain ⟨v, hv⟩ := ih hl (acc * base + d)
    refine ⟨v, ?_⟩
    rw [readNumeral, hd]
    exact hv

theorem readNumeral_digits (hchar : ∀ d < base, digit (char d) = some d) (ds : List ℕ)
    (hds : ∀ d ∈ ds, d < base) :
    readNumeral base digit 0 (ds.reverse.map char) = some (Nat.ofDigits base ds) := by
  induction ds with
  | nil => rfl
  | cons d ds ih =>
    obtain ⟨hd, hds⟩ := List.forall_mem_cons.mp hds
    rw [List.reverse_cons, List.map_append, readNumeral_append, ih hds, Option.bind_some,
      List.map_singleton, readNumeral, hchar d hd, Nat.ofDigits_cons]
    simp only [Option.bind_some, readNumeral]
    congr 1
    rw [Nat.mul_comm, Nat.add_comm]

/-- What is printed reads back. -/
theorem readNumeral_printNumeral (hbase : 1 < base) (hchar : ∀ d < base, digit (char d) = some d)
    (n : ℕ) : readNumeral base digit 0 (printNumeral base char n) = some n := by
  rw [printNumeral]
  split_ifs with hn
  · rw [readNumeral, hchar 0 (by omega), hn]
    simp [readNumeral]
  · rw [readNumeral_digits hchar _ fun d hd => Nat.digits_lt_base hbase hd, Nat.ofDigits_digits]

theorem printNumeral_ne_nil (n : ℕ) : printNumeral base char n ≠ [] := by
  rw [printNumeral]
  split_ifs with hn
  · simp
  · simpa using Nat.digits_ne_nil_iff_ne_zero.mpr hn

theorem printNumeral_length_le (hbase : 1 < base) {k : ℕ} (hk : 0 < k) (hn : n < base ^ k) :
    (printNumeral base char n).length ≤ k := by
  rw [printNumeral]
  split_ifs with hzero
  · exact hk
  · rw [List.length_map, List.length_reverse]
    exact (Nat.digits_length_le_iff hbase n).mpr hn

/-- Only the numeral of zero starts with a zero. -/
theorem printNumeral_head (hbase : 1 < base) (hchar : ∀ d < base, digit (char d) = some d)
    (hhead : (printNumeral base char n).head? = some (char 0)) :
    printNumeral base char n = [char 0] := by
  by_cases hn : n = 0
  · rw [printNumeral, if_pos hn]
  · exfalso
    have hne : Nat.digits base n ≠ [] := Nat.digits_ne_nil_iff_ne_zero.mpr hn
    have hlast := Nat.getLast_digit_ne_zero base hn
    rw [printNumeral, if_neg hn, List.head?_map, List.head?_reverse, List.getLast?_eq_some_getLast hne,
      Option.map_some, Option.some.injEq] at hhead
    have hlt : (Nat.digits base n).getLast hne < base :=
      Nat.digits_lt_base hbase (List.getLast_mem hne)
    have hsame := hchar _ hlt
    rw [hhead, hchar 0 (by omega), Option.some.injEq] at hsame
    exact hlast hsame.symm
