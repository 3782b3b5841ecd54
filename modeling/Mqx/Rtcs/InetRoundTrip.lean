import Mqx.Rtcs.InetNtop

/-!
# The text form of an address reads back

The text that `inet_ntop6` writes stands for the address, but for the bytes of a decimal end, which
it takes in the order of the host; so `inet_pton6` returns the address. Two texts of one address
are read alike just when both have a decimal end or neither has, unless the last four bytes read
the same backwards.
-/

namespace Mqx
namespace Rtcs
namespace Inet

variable {a src tmp text t : List UInt8} {w : ℕ → ℕ} {v i j m b n size : ℕ} {best : ZeroRun}
  {st : Scan} {d : Bool}

/-! ## Digits and words -/

theorem hexDigit_digitChar : ∀ d < 16, hexDigit (digitChar d) = some d := by decide

theorem decimalDigit_digitChar : ∀ d < 10, decimalDigit (digitChar d) = some d := by decide

theorem hexGroup_printX (h : v < 65536) : HexGroup (printX v) v where
  ne_nil := printNumeral_ne_nil v
  length_le := printNumeral_length_le (by omega) (by omega) h
  value := readNumeral_printNumeral (by omega) hexDigit_digitChar v

theorem decimal_printU (h : v ≤ 255) : Decimal (printU v) v where
  ne_nil := printNumeral_ne_nil v
  value := readNumeral_printNumeral (by omega) decimalDigit_digitChar v
  le := h
  canonical := printNumeral_head (by omega) decimalDigit_digitChar

theorem dotted_printOctets (h : src.length = 4) : Dotted (printOctets src) src := by
  obtain ⟨a, b, c, d, rfl⟩ : ∃ a b c d, src = [a, b, c, d] := List.length_eq_four.mp h
  have hbyte : ∀ x : UInt8, Decimal (printU x.toNat) x.toNat := by
    intro x
    exact decimal_printU (Nat.le_of_lt_succ x.toNat_lt)
  have hall := Octets.more (hbyte a) (Octets.more (hbyte b) (Octets.more (hbyte c)
    (Octets.one (hbyte d))))
  simp only [UInt8.ofNat_toNat] at hall
  refine ⟨?_, rfl⟩
  simpa [printOctets] using hall

theorem printOctets_length (src : List UInt8) :
    0 < (printOctets src).length ∧ (printOctets src).length ≤ 15 := by
  have hbyte : ∀ x : UInt8, (printU x.toNat).length ≤ 3 := by
    intro x
    exact (decimal_printU (Nat.le_of_lt_succ x.toNat_lt)).length_le
  have h0 := hbyte (src.getD 0 0)
  have h1 := hbyte (src.getD 1 0)
  have h2 := hbyte (src.getD 2 0)
  have h3 := hbyte (src.getD 3 0)
  simp only [printOctets, List.length_append, List.length_cons]
  omega

theorem inetNtop4_eq (h : src.length = 4) (hsize : 16 ≤ size) :
    inetNtop4 src size = some (printOctets src.reverse) := by
  have hlen := printOctets_length src.reverse
  rw [inetNtop4, mqxHtonl_copyLong h, if_neg (by omega)]

theorem words_shift (hi : i < 8) :
    words a i = (a.getD (2 * i) 0).toNat <<< 8 ||| (a.getD (2 * i + 1) 0).toNat := by
  interval_cases i <;> simp [words, fillWords]

theorem words_eq (hi : i < 8) :
    words a i = (a.getD (2 * i) 0).toNat * 256 + (a.getD (2 * i + 1) 0).toNat := by
  rw [words_shift hi, ← Nat.shiftLeft_add_eq_or_of_lt (a.getD (2 * i + 1) 0).toNat_lt,
    Nat.shiftLeft_eq]

theorem words_lt (hi : i < 8) : words a i < 65536 := by
  have hhigh := (a.getD (2 * i) 0).toNat_lt
  have hlow := (a.getD (2 * i + 1) 0).toNat_lt
  rw [words_eq hi]
  omega

theorem pair_words (hi : i < 8) : pair (words a i) = [a.getD (2 * i) 0, a.getD (2 * i + 1) 0] := by
  have hhigh := (a.getD (2 * i) 0).toNat_lt
  have hlow := (a.getD (2 * i + 1) 0).toNat_lt
  rw [pair, words_eq hi, Nat.shiftRight_eq_div_pow]
  refine congrArg₂ (fun x y => [x, y]) ?_ ?_
  · rw [← UInt8.toNat_inj, UInt8.toNat_ofNat']
    omega
  · rw [← UInt8.toNat_inj, UInt8.toNat_ofNat']
    omega

/-- The bytes of some words. -/
def bytesOf (w : ℕ → ℕ) (i n : ℕ) : List UInt8 := (List.range' i n).flatMap fun j => pair (w j)

/-- The text of some words, with a colon in front of each. -/
def groupsOf (w : ℕ → ℕ) (i n : ℕ) : List UInt8 :=
  (List.range' i n).flatMap fun j => colonChar :: printX (w j)

theorem bytesOf_succ : bytesOf w i (n + 1) = pair (w i) ++ bytesOf w (i + 1) n := rfl

theorem groupsOf_succ :
    groupsOf w i (n + 1) = colonChar :: printX (w i) ++ groupsOf w (i + 1) n := rfl

theorem bytesOf_append : bytesOf w i (m + n) = bytesOf w i m ++ bytesOf w (i + m) n := by
  rw [bytesOf, bytesOf, bytesOf, ← List.flatMap_append, List.range'_append_1]

theorem bytesOf_length : (bytesOf w i n).length = 2 * n := by
  induction n generalizing i with
  | zero => rfl
  | succ n ih =>
    rw [bytesOf_succ, List.length_append, ih, pair, List.length_cons, List.length_singleton]
    omega

theorem bytesOf_zero (h : ∀ j, i ≤ j → j < i + n → w j = 0) :
    bytesOf w i n = List.replicate (2 * n) 0 := by
  induction n generalizing i with
  | zero => rfl
  | succ n ih =>
    rw [bytesOf_succ, h i (le_refl _) (by omega), ih fun j hj hj' => h j (by omega) (by omega)]
    rfl

theorem bytesOf_words (h : a.length = 16) : bytesOf (words a) 0 8 = a := by
  have hpairs : bytesOf (words a) 0 8 =
      (List.range' 0 8).flatMap fun j => [a.getD (2 * j) 0, a.getD (2 * j + 1) 0] := by
    refine List.flatMap_congr fun j hj => pair_words ?_
    have := List.mem_range'_1.mp hj
    omega
  rw [hpairs]
  apply List.ext_getElem
  · simp [List.range', h]
  · intro i hi hi'
    rw [h] at hi'
    interval_cases i <;> simp [List.range', h]

/-- An address is what its text leaves out between what it does not. -/
theorem filled_bytesOf (h : a.length = 16) (hn : b + n ≤ 8)
    (hzero : ∀ j, b ≤ j → j < b + n → words a j = 0) :
    filled (bytesOf (words a) 0 b) (bytesOf (words a) (b + n) (8 - (b + n))) = a := by
  have hsplit : bytesOf (words a) 0 (b + (n + (8 - (b + n)))) = a := by
    rw [← Nat.add_assoc, Nat.add_sub_cancel' hn, bytesOf_words h]
  rw [bytesOf_append, bytesOf_append, Nat.zero_add, bytesOf_zero hzero] at hsplit
  rw [filled, bytesOf_length, bytesOf_length, List.append_assoc]
  have hrest : 16 - (2 * b + 2 * (8 - (b + n))) = 2 * n := by omega
  rw [hrest, hsplit]

theorem drop_words (h : a.length = 16) (hi : i ≤ 8) :
    a.drop (2 * i) = bytesOf (words a) i (8 - i) := by
  have hsplit : bytesOf (words a) 0 (i + (8 - i)) = a := by
    rw [Nat.add_sub_cancel' hi, bytesOf_words h]
  rw [bytesOf_append, Nat.zero_add] at hsplit
  have hdrop := @List.drop_left _ (bytesOf (words a) 0 i) (bytesOf (words a) i (8 - i))
  rw [bytesOf_length, hsplit] at hdrop
  exact hdrop

/-! ## The run that is left out -/

/-- The words of a run that ends by word `i` are zero. -/
def ZeroRun.Zero (w : ℕ → ℕ) (i : ℕ) (r : ZeroRun) : Prop :=
  ∀ b, r.base = some b → b + r.len ≤ i ∧ ∀ j, b ≤ j → j < b + r.len → w j = 0

/-- The invariant of the search. -/
structure Scan.Inv (w : ℕ → ℕ) (i : ℕ) (st : Scan) : Prop where
  best : st.best.Zero w i
  cur : st.cur.Zero w i
  open_end : ∀ b, st.cur.base = some b → b + st.cur.len = i

theorem keepBest_zero (h : st.Inv w i) : st.keepBest.best.Zero w i := by
  rw [Scan.keepBest]
  split_ifs with hlonger
  · exact h.cur
  · exact h.best

theorem ZeroRun.Zero.mono {r : ZeroRun} (h : r.Zero w i) (hij : i ≤ j) : r.Zero w j := by
  intro b hb
  obtain ⟨hle, hzero⟩ := h b hb
  exact ⟨by omega, hzero⟩

theorem ZeroRun.zero_of_none {r : ZeroRun} (h : r.base = none) : r.Zero w i := by
  intro b hb
  rw [h] at hb
  cases hb

theorem word_inv (h : st.Inv w i) : (st.word i (w i)).Inv w (i + 1) := by
  rw [Scan.word]
  split_ifs with hw hnew hend
  · refine ⟨h.best.mono (Nat.le_succ i), ?_, ?_⟩
    · intro b hb
      obtain rfl : i = b := Option.some.inj hb
      refine ⟨le_refl _, fun j hj hj' => ?_⟩
      simp only at hj'
      obtain rfl : j = i := by omega
      exact hw
    · intro b hb
      obtain rfl : i = b := Option.some.inj hb
      rfl
  · refine ⟨h.best.mono (Nat.le_succ i), ?_, ?_⟩
    · intro b hb
      have hopen := h.open_end b hb
      obtain ⟨hle, hzero⟩ := h.cur b hb
      refine ⟨by simp only; omega, fun j hj hj' => ?_⟩
      by_cases hlast : j = i
      · rw [hlast, hw]
      · refine hzero j hj ?_
        simp only at hj'
        omega
    · intro b hb
      have hopen := h.open_end b hb
      simp only
      omega
  · refine ⟨(keepBest_zero h).mono (Nat.le_succ i), ZeroRun.zero_of_none rfl, ?_⟩
    intro b hb
    cases hb
  · rw [not_not] at hend
    refine ⟨h.best.mono (Nat.le_succ i), h.cur.mono (Nat.le_succ i), fun b hb => ?_⟩
    rw [hend] at hb
    cases hb

theorem scan_inv (w : ℕ → ℕ) (i : ℕ) : (scan w i).Inv w i := by
  induction i with
  | zero =>
    refine ⟨ZeroRun.zero_of_none rfl, ZeroRun.zero_of_none rfl, ?_⟩
    intro b hb
    cases hb
  | succ i ih => exact word_inv ih

/-- What is left out are two zero words at least. -/
theorem bestRun_spec (hb : (bestRun w).base = some b) :
    2 ≤ (bestRun w).len ∧ b + (bestRun w).len ≤ 8 ∧
      ∀ j, b ≤ j → j < b + (bestRun w).len → w j = 0 := by
  have hzero : (if (scan w 8).cur.base ≠ none then (scan w 8).keepBest else scan w 8).best.Zero w 8 := by
    split_ifs
    · exact keepBest_zero (scan_inv w 8)
    · exact (scan_inv w 8).best
  rw [bestRun] at hb ⊢
  generalize (if (scan w 8).cur.base ≠ none then (scan w 8).keepBest else scan w 8).best = r at *
  split_ifs at hb ⊢ with hshort
  obtain ⟨hle, hall⟩ := hzero b hb
  refine ⟨?_, hle, hall⟩
  rw [hb] at hshort
  have hlong : 1 < r.len := by simpa using hshort
  omega

/-! ## The text -/

theorem fmt_covered (hi : i < 8) (hcov : best.covers i = true) :
    fmtLoop src w best (8 - i) tmp =
      fmtLoop src w best (8 - (i + 1))
        (if best.base = some i then tmp ++ [colonChar] else tmp) := by
  have hrounds : 8 - i = 8 - (i + 1) + 1 := by omega
  have hround : 7 - (8 - (i + 1)) = i := by omega
  rw [hrounds, fmtLoop]
  simp only [hround]
  rw [if_pos hcov]

theorem fmt_group (hi : i < 8) (hcov : best.covers i = false) (henc : ¬ encapsulated w best i) :
    fmtLoop src w best (8 - i) tmp =
      fmtLoop src w best (8 - (i + 1))
        ((if i ≠ 0 then tmp ++ [colonChar] else tmp) ++ printX (w i)) := by
  have hrounds : 8 - i = 8 - (i + 1) + 1 := by omega
  have hround : 7 - (8 - (i + 1)) = i := by omega
  rw [hrounds, fmtLoop]
  simp only [hround]
  rw [if_neg (by simp [hcov]), if_neg henc]

theorem fmt_groups (hi : 0 < i) (hm : i + m ≤ 8)
    (hcov : ∀ j, i ≤ j → j < i + m → best.covers j = false)
    (henc : ∀ j, i ≤ j → j < i + m → ¬ encapsulated w best j) :
    fmtLoop src w best (8 - i) tmp = fmtLoop src w best (8 - (i + m)) (tmp ++ groupsOf w i m) := by
  induction m generalizing i tmp with
  | zero => rw [groupsOf, List.range'_zero, List.flatMap_nil, List.append_nil, Nat.add_zero]
  | succ m ih =>
    rw [fmt_group (by omega) (hcov i (le_refl _) (by omega)) (henc i (le_refl _) (by omega)),
      if_pos (by omega), ih (by omega) (by omega) (fun j hj hj' => hcov j (by omega) (by omega))
        (fun j hj hj' => henc j (by omega) (by omega)),
      Nat.add_assoc i 1 m, Nat.add_comm 1 m, groupsOf_succ]
    simp only [List.append_assoc, List.cons_append, List.nil_append]

theorem fmt_decimal (hsrc : (src.drop 12).length = 4) (htmp : tmp.length ≤ 29)
    (hcov : best.covers 6 = false) (henc : encapsulated w best 6) :
    fmtLoop src w best (8 - 6) tmp =
      some (tmp ++ colonChar :: printOctets (src.drop 12).reverse) := by
  have hsize : 16 ≤ tmpSize - (tmp ++ [colonChar]).length := by
    rw [tmpSize, List.length_append, List.length_singleton]
    omega
  rw [show 8 - 6 = 1 + 1 by rfl, fmtLoop]
  simp only [show 7 - 1 = 6 by rfl]
  rw [if_neg (by simp [hcov]), if_pos henc, if_pos (by omega), inetNtop4_eq hsrc hsize]
  simp only [List.append_assoc, List.singleton_append]

theorem covers_iff (hb : best.base = some b) :
    best.covers i = true ↔ b ≤ i ∧ i < b + best.len := by
  rw [ZeroRun.covers, hb, Option.any_some, decide_eq_true_iff]

theorem not_covers (hb : best.base = some b) (h : i < b ∨ b + best.len ≤ i) :
    best.covers i = false := by
  rw [← Bool.not_eq_true, covers_iff hb]
  omega

/-- The rounds inside the run. -/
theorem fmt_inside (hb : best.base = some b) (hi : b < i) (hm : i + m ≤ b + best.len)
    (hfits : b + best.len ≤ 8) :
    fmtLoop src w best (8 - i) tmp = fmtLoop src w best (8 - (i + m)) tmp := by
  induction m generalizing i with
  | zero => rfl
  | succ m ih =>
    have hne : best.base ≠ some i := by
      rw [hb, ne_eq, Option.some.injEq]
      omega
    rw [fmt_covered (by omega) ((covers_iff hb).mpr ⟨hi.le, by omega⟩), if_neg hne,
      ih (by omega) (by omega), Nat.add_assoc i 1 m, Nat.add_comm 1 m]

theorem fmt_run (hb : best.base = some b) (hpos : 0 < best.len) (hfits : b + best.len ≤ 8) :
    fmtLoop src w best (8 - b) tmp =
      fmtLoop src w best (8 - (b + best.len)) (tmp ++ [colonChar]) := by
  have hrest : b + 1 + (best.len - 1) = b + best.len := by omega
  rw [fmt_covered (by omega) ((covers_iff hb).mpr ⟨le_refl _, by omega⟩), if_pos hb,
    @fmt_inside src _ w (b + 1) (best.len - 1) b best hb (by omega) (by omega) hfits, hrest]

/-! ## What the text stands for -/

theorem printX_length (h : v < 65536) : (printX v).length ≤ 4 := (hexGroup_printX h).length_le

theorem groupsOf_length (h : ∀ j, i ≤ j → j < i + n → w j < 65536) :
    (groupsOf w i n).length ≤ 5 * n := by
  induction n generalizing i with
  | zero => exact le_refl _
  | succ n ih =>
    have hgroup := printX_length (h i (le_refl _) (by omega))
    have hrest := @ih (i + 1) fun j hj hj' => h j (by omega) (by omega)
    rw [groupsOf_succ, List.length_append, List.length_cons]
    omega

theorem tail_groups (h : ∀ j, i ≤ j → j < i + (n + 1) → w j < 65536) :
    Tail (printX (w i) ++ groupsOf w (i + 1) n) (bytesOf w i (n + 1)) false := by
  have hgroup := hexGroup_printX (h i (le_refl _) (by omega))
  induction n generalizing i with
  | zero =>
    have hlast := Tail.last hgroup
    simpa [groupsOf, bytesOf] using hlast
  | succ n ih =>
    have hlt : ∀ j, i + 1 ≤ j → j < i + 1 + (n + 1) → w j < 65536 := by
      intro j hj hj'
      exact h j (by omega) (by omega)
    have hrest := ih hlt (hexGroup_printX (hlt (i + 1) (le_refl _) (by omega)))
    rw [bytesOf_succ, groupsOf_succ]
    exact Tail.cons hgroup hrest

theorem lead_groups (h : ∀ j, i ≤ j → j < i + (n + 1) → w j < 65536) :
    Lead (printX (w i) ++ groupsOf w (i + 1) n ++ [colonChar]) (bytesOf w i (n + 1)) := by
  have hgroup := hexGroup_printX (h i (le_refl _) (by omega))
  induction n generalizing i with
  | zero =>
    have hlast := Lead.cons hgroup Lead.nil
    simpa [groupsOf, bytesOf] using hlast
  | succ n ih =>
    have hlt : ∀ j, i + 1 ≤ j → j < i + 1 + (n + 1) → w j < 65536 := by
      intro j hj hj'
      exact h j (by omega) (by omega)
    have hrest := ih hlt (hexGroup_printX (hlt (i + 1) (le_refl _) (by omega)))
    rw [bytesOf_succ, groupsOf_succ, List.append_assoc, List.append_assoc]
    have hall := Lead.cons hgroup hrest
    simpa only [List.append_assoc, List.cons_append] using hall

/-- The text behind the run: its second colon and the groups. -/
theorem part_groups (hi : i ≤ 8) (h : ∀ j, j < 8 → w j < 65536) :
    ∃ r, groupsOf w i (8 - i) ++ (if i = 8 then [colonChar] else []) = colonChar :: r ∧
      Part r (bytesOf w i (8 - i)) false := by
  by_cases hend : i = 8
  · subst hend
    exact ⟨[], rfl, Or.inl ⟨rfl, rfl, rfl⟩⟩
  · have hcount : 8 - i = (8 - (i + 1)) + 1 := by omega
    refine ⟨printX (w i) ++ groupsOf w (i + 1) (8 - (i + 1)), ?_, Or.inr ?_⟩
    · rw [if_neg hend, List.append_nil, hcount, groupsOf_succ]
      rfl
    · rw [hcount]
      exact tail_groups fun j hj hj' => h j (by omega)

/-- No run is left out. -/
theorem formatted_none (h : a.length = 16) (hb : (bestRun (words a)).base = none) :
    ∃ text, formatted a = some text ∧ text.length ≤ 39 ∧ Denotes text a false := by
  have hcov : ∀ j, (bestRun (words a)).covers j = false := by
    intro j
    rw [ZeroRun.covers, hb, Option.any_none]
  have henc : ∀ j, ¬ encapsulated (words a) (bestRun (words a)) j := by
    intro j hj
    have hbase := hj.2.1
    rw [hb] at hbase
    cases hbase
  have hlt : ∀ j, 0 + 1 ≤ j → j < 0 + 1 + 7 → words a j < 65536 := by
    intro j hj hj'
    exact words_lt (by omega)
  have htext : formatted a = some (printX (words a 0) ++ groupsOf (words a) (0 + 1) 7) := by
    have hfirst := @fmt_group a [] (words a) 0 _ (by omega) (hcov 0) (henc 0)
    have hrest := @fmt_groups a ([] ++ printX (words a 0)) (words a) (0 + 1) 7 _ (by omega)
      (by omega) (fun j hj hj' => hcov j) fun j hj hj' => henc j
    rw [if_neg (by omega), hrest] at hfirst
    rw [formatted, show (8 : ℕ) = 8 - 0 by rfl, hfirst]
    simp only [hb, Option.any_none, List.nil_append]
    rfl
  have hgroups := groupsOf_length hlt
  have hone := printX_length (@words_lt a 0 (by omega))
  refine ⟨_, htext, ?_, ?_⟩
  · rw [List.length_append]
    omega
  · have htail := @tail_groups (words a) 0 7 fun j hj hj' => words_lt (by omega)
    rw [bytesOf_words h] at htail
    exact Denotes.full htail h

/-- A run is left out, and the rest is in hexadecimal. -/
theorem formatted_run (h : a.length = 16) (hb : (bestRun (words a)).base = some b)
    (henc : (bestRun (words a)).covers 6 = false →
      ¬ encapsulated (words a) (bestRun (words a)) 6) :
    ∃ text, formatted a = some text ∧ text.length ≤ 39 ∧ Denotes text a false := by
  obtain ⟨htwo, hfits, hzero⟩ := bestRun_spec hb
  generalize hrun : bestRun (words a) = best at *
  have hlt : ∀ j, j < 8 → words a j < 65536 := fun j hj => words_lt hj
  have henc' : ∀ j, best.covers j = false → ¬ encapsulated (words a) best j := by
    intro j hcov hj
    obtain rfl : j = 6 := hj.1
    exact henc hcov hj
  obtain ⟨r, hr, hpart⟩ := @part_groups (words a) (b + best.len) hfits hlt
  have hfill := filled_bytesOf h hfits hzero
  have hlast : ∀ tmp, fmtLoop a (words a) best (8 - b) tmp =
      some (tmp ++ [colonChar] ++ groupsOf (words a) (b + best.len) (8 - (b + best.len))) := by
    intro tmp
    have hafter : ∀ j, b + best.len ≤ j → best.covers j = false := fun j hj =>
      not_covers hb (Or.inr hj)
    have hgroups := @fmt_groups a (tmp ++ [colonChar]) (words a) (b + best.len)
      (8 - (b + best.len)) best (by omega) (by omega) (fun j hj hj' => hafter j hj)
      fun j hj hj' => henc' j (hafter j hj)
    rw [fmt_run hb (by omega) hfits, hgroups, Nat.add_sub_cancel' hfits]
    rfl
  have hend : ∀ tmp, fmtLoop a (words a) best 8 [] = fmtLoop a (words a) best (8 - b) tmp →
      formatted a = some (tmp ++ colonChar :: colonChar :: r) := by
    intro tmp htmp
    rw [formatted, hrun, htmp, hlast]
    simp only [hb, Option.any_some, decide_eq_true_eq]
    rw [← hr]
    split_ifs <;> simp
  have hrlen : r.length ≤ 5 * (8 - (b + best.len)) + 1 := by
    have hgroups := @groupsOf_length (words a) (b + best.len) (8 - (b + best.len))
      fun j hj hj' => hlt j (by omega)
    have hlen := congrArg List.length hr
    rw [List.length_append, List.length_cons] at hlen
    split_ifs at hlen <;> simp at hlen <;> omega
  by_cases hzerob : b = 0
  · subst hzerob
    refine ⟨_, hend [] rfl, ?_, ?_⟩
    · simp
      omega
    · rw [← hfill]
      refine Denotes.leading hpart ?_
      rw [bytesOf_length]
      omega
  · obtain ⟨c, rfl⟩ := Nat.exists_eq_succ_of_ne_zero hzerob
    have hbefore : ∀ j, j < c + 1 → best.covers j = false := fun j hj => not_covers hb (Or.inl hj)
    have hfirst := @fmt_group a [] (words a) 0 best (by omega) (hbefore 0 (by omega))
      (henc' 0 (hbefore 0 (by omega)))
    have hrest := @fmt_groups a ([] ++ printX (words a 0)) (words a) (0 + 1) c best (by omega)
      (by omega) (fun j hj hj' => hbefore j (by omega))
      fun j hj hj' => henc' j (hbefore j (by omega))
    rw [if_neg (by omega), hrest, Nat.add_assoc, Nat.zero_add, Nat.add_comm 1 c,
      List.nil_append] at hfirst
    have hlead := @lead_groups (words a) 0 c fun j hj hj' => hlt j (by omega)
    have hone := printX_length (hlt 0 (by omega))
    have hgroups := @groupsOf_length (words a) (0 + 1) c fun j hj hj' => hlt j (by omega)
    refine ⟨_, hend _ hfirst, ?_, ?_⟩
    · simp only [List.length_append, List.length_cons]
      omega
    · have hden := @Denotes.inner _ _ r _ false hlead (by simp) hpart
        (by rw [bytesOf_length, bytesOf_length]; omega)
      rw [hfill] at hden
      simpa only [List.append_assoc, List.singleton_append] using hden

/-- The text has a decimal end. -/
theorem formatted_encapsulated (h : a.length = 16) (hcov : (bestRun (words a)).covers 6 = false)
    (henc : encapsulated (words a) (bestRun (words a)) 6) :
    ∃ text, formatted a = some text ∧ text.length ≤ 39 ∧ Denotes text (swapTail true a) true := by
  have hb := henc.2.1
  have hlen := henc.2.2
  obtain ⟨-, hfits, hzero⟩ := bestRun_spec hb
  have hcov' := hcov
  rw [← Bool.not_eq_true, covers_iff hb] at hcov'
  have hdrop : (a.drop 12).length = 4 := by rw [List.length_drop, h]
  have hfour : (a.drop 12).reverse.length = 4 := by rw [List.length_reverse, hdrop]
  have hdotted := dotted_printOctets hfour
  have hshort := printOctets_length (a.drop 12).reverse
  have hlast : a.drop 12 = bytesOf (words a) 6 2 := @drop_words a 6 h (by omega)
  have hend : ∀ r, fmtLoop a (words a) (bestRun (words a)) (8 - (bestRun (words a)).len)
        [colonChar] = some (colonChar :: colonChar :: r) → r.length ≤ 37 →
      Tail r (swapTail true (bytesOf (words a) (bestRun (words a)).len
        (8 - (bestRun (words a)).len))) true →
      ∃ text, formatted a = some text ∧ text.length ≤ 39 ∧
        Denotes text (swapTail true a) true := by
    intro r hr hlength htail
    have hbytes : 4 ≤ (bytesOf (words a) (bestRun (words a)).len
        (8 - (bestRun (words a)).len)).length := by
      rw [bytesOf_length]
      omega
    have hfill := filled_bytesOf h hfits hzero
    rw [Nat.zero_add, show bytesOf (words a) 0 0 = [] by rfl] at hfill
    refine ⟨colonChar :: colonChar :: r, ?_, by simp only [List.length_cons]; omega, ?_⟩
    · have hrun := @fmt_run a [] (words a) 0 _ hb (by omega) hfits
      rw [Nat.zero_add, List.nil_append, hr] at hrun
      rw [formatted, show (8 : ℕ) = 8 - 0 by rfl, hrun]
      simp only [hb, Option.any_some, decide_eq_true_eq]
      rw [if_neg (by omega)]
    · have hden := Denotes.leading (Or.inr htail) (by rw [swapTail_length, bytesOf_length]; omega)
      rw [filled_swapTail fun _ => hbytes, hfill] at hden
      exact hden
  rcases hlen with hsix | ⟨hseven, -⟩ | ⟨hfive, -⟩
  · refine hend (printOctets (a.drop 12).reverse) ?_ (by omega) ?_
    · rw [hsix, fmt_decimal hdrop (by simp) hcov ⟨rfl, hb, Or.inl hsix⟩]
      rfl
    · rw [hsix, ← hlast, swapTail_four hdrop]
      exact Tail.dotted hdotted
  · omega
  · have hfifth : (bestRun (words a)).covers 5 = false := not_covers hb (Or.inr (by omega))
    have hne : ¬ encapsulated (words a) (bestRun (words a)) 5 := by
      intro hsix
      exact absurd hsix.1 (by omega)
    have hone := printX_length (@words_lt a 5 (by omega))
    refine hend (printX (words a 5) ++ colonChar :: printOctets (a.drop 12).reverse) ?_ ?_ ?_
    · have hlen : ([colonChar] ++ [colonChar] ++ printX (words a 5)).length ≤ 29 := by
        simp only [List.length_append, List.length_singleton]
        omega
      rw [hfive, fmt_group (by omega) hfifth hne, if_pos (by omega),
        fmt_decimal hdrop hlen hcov henc]
      simp
    · rw [List.length_append, List.length_cons]
      omega
    · rw [hfive, show bytesOf (words a) 5 (8 - 5) = pair (words a 5) ++ bytesOf (words a) 6 2 by rfl,
        ← hlast, swapTail_append fun _ => by rw [hdrop], swapTail_four hdrop]
      exact Tail.cons (hexGroup_printX (words_lt (by omega))) (Tail.dotted hdotted)

/-- What is written stands for the address, but for the order of the bytes of a decimal end. -/
theorem formatted_denotes (h : a.length = 16) :
    ∃ text d, formatted a = some text ∧ text.length ≤ 39 ∧ Denotes text (swapTail d a) d := by
  cases hb : (bestRun (words a)).base with
  | none =>
    obtain ⟨text, hden⟩ := formatted_none h hb
    exact ⟨text, false, hden⟩
  | some b =>
    by_cases henc : (bestRun (words a)).covers 6 = false ∧
        encapsulated (words a) (bestRun (words a)) 6
    · obtain ⟨text, hden⟩ := formatted_encapsulated h henc.1 henc.2
      exact ⟨text, true, hden⟩
    · rw [not_and] at henc
      obtain ⟨text, hden⟩ := formatted_run h hb henc
      exact ⟨text, false, hden⟩

/-! ## Both directions -/

theorem swapTail_swapTail (h : 4 ≤ a.length) : swapTail d (swapTail d a) = a := by
  cases d with
  | false => rfl
  | true =>
    obtain ⟨l, k, rfl, hk⟩ : ∃ l k, a = l ++ k ∧ k.length = 4 := by
      refine ⟨a.take (a.length - 4), a.drop (a.length - 4),
        (List.take_append_drop _ _).symm, ?_⟩
      rw [List.length_drop]
      omega
    have hrev : k.reverse.length = 4 := by rw [List.length_reverse, hk]
    rw [swapTail_append fun _ => hk.ge, swapTail_four hk, swapTail_append fun _ => hrev.ge,
      swapTail_four hrev, List.reverse_reverse]

theorem Denotes.length_eq (h : Denotes t a d) : a.length = 16 := by
  cases h with
  | full h hlen => exact hlen
  | leading h hlen => exact filled_length (by simpa using hlen.le)
  | inner hl hne h hlen => exact filled_length hlen.le

theorem HexGroup.no_dot {g : List UInt8} (h : HexGroup g v) : dotChar ∉ g := by
  intro hdot
  have hsome := isSome_of_readNumeral h.value dotChar hdot
  rw [hexDigit_dot] at hsome
  cases hsome

/-- Only a decimal end has dots. -/
theorem Tail.dot_mem {bs : List UInt8} (h : Tail t bs d) : dotChar ∈ t ↔ d = true := by
  induction h with
  | last h => simp [h.no_dot]
  | dotted h =>
    obtain ⟨g, v, t', -, rfl⟩ := h.first
    simp
  | cons h ht ih =>
    have hne : dotChar ≠ colonChar := by decide
    simp [h.no_dot, hne, ih]

theorem Part.dot_mem {bs : List UInt8} (h : Part t bs d) : dotChar ∈ t ↔ d = true := by
  rcases h with ⟨rfl, -, rfl⟩ | h
  · simp
  · exact h.dot_mem

theorem Lead.no_dot {bs : List UInt8} (h : Lead t bs) : dotChar ∉ t := by
  induction h with
  | nil => simp
  | cons h ht ih =>
    have hne : dotChar ≠ colonChar := by decide
    simp [h.no_dot, hne, ih]

theorem Denotes.dot_mem (h : Denotes t a d) : dotChar ∈ t ↔ d = true := by
  have hne : dotChar ≠ colonChar := by decide
  cases h with
  | full h hlen => exact h.dot_mem
  | leading h hlen => simp [hne, h.dot_mem]
  | inner hl hne' h hlen => simp [hl.no_dot, hne, h.dot_mem]

theorem swapTail_eq_iff (h : 4 ≤ a.length) :
    swapTail true a = a ↔ (a.drop (a.length - 4)).reverse = a.drop (a.length - 4) := by
  have hsplit := (List.take_append_drop (a.length - 4) a).symm
  rw [swapTail, if_pos rfl]
  constructor
  · intro heq
    exact List.append_cancel_left (heq.trans hsplit)
  · intro heq
    rw [heq, List.take_append_drop]

/-- Two texts of one address are read alike. -/
theorem swapTail_agree {d' : Bool} (h : 4 ≤ a.length) :
    swapTail d a = swapTail d' a ↔
      d = d' ∨ (a.drop (a.length - 4)).reverse = a.drop (a.length - 4) := by
  rw [← swapTail_eq_iff h]
  cases d <;> cases d' <;> simp [eq_comm]

/-- The text written for an address, in a buffer that it fits into, is read back as the address;
and two texts that stand for one address are read alike if both have a decimal end or neither has,
and else only where the last four bytes read the same backwards. -/
theorem inet6_text_form (addr : In6Addr) {t₁ t₂ a : List UInt8} {d₁ d₂ : Bool}
    (h₁ : Denotes t₁ a d₁) (h₂ : Denotes t₂ a d₂) :
    (∃ text, text.length < tmpSize ∧
        (∀ size, text.length < size → inetNtop .inet6 addr.s6Addr size = some text) ∧
        ∀ sizeofDst, 16 ≤ sizeofDst → inetPton .inet6 text sizeofDst = some addr.s6Addr) ∧
      ((∃ b, ∀ sizeofDst, 16 ≤ sizeofDst →
          inetPton .inet6 t₁ sizeofDst = some b ∧ inetPton .inet6 t₂ sizeofDst = some b) ↔
        (dotChar ∈ t₁ ↔ dotChar ∈ t₂) ∨ (a.drop 12).reverse = a.drop 12) := by
  have hread : ∀ t sizeofDst, 16 ≤ sizeofDst → inetPton .inet6 t sizeofDst = inetPton6 t := by
    intro t sizeofDst hsize
    exact if_neg (by omega)
  constructor
  · obtain ⟨text, d, htext, hlen, hden⟩ := formatted_denotes addr.length_eq
    refine ⟨text, by rw [tmpSize]; omega, ?_, ?_⟩
    · intro size hsize
      rw [inetNtop, inetNtop6, htext]
      exact if_neg (by omega)
    · intro sizeofDst hsize
      rw [hread text sizeofDst hsize, inetPton6_iff]
      refine ⟨_, d, hden, ?_⟩
      rw [swapTail_swapTail]
      rw [addr.length_eq]
      omega
  · have hlen := h₁.length_eq
    have hagree := @swapTail_agree a d₁ d₂ (by omega)
    rw [hlen] at hagree
    have hdots : (dotChar ∈ t₁ ↔ dotChar ∈ t₂) ↔ d₁ = d₂ := by
      rw [h₁.dot_mem, h₂.dot_mem, Bool.coe_iff_coe]
    rw [hdots, ← hagree]
    have hresult₁ := inetPton6_iff.mpr ⟨a, d₁, h₁, rfl⟩
    have hresult₂ := inetPton6_iff.mpr ⟨a, d₂, h₂, rfl⟩
    constructor
    · rintro ⟨b, hb⟩
      obtain ⟨hb₁, hb₂⟩ := hb 16 (le_refl _)
      rw [hread t₁ 16 (le_refl _), hresult₁] at hb₁
      rw [hread t₂ 16 (le_refl _), hresult₂] at hb₂
      rw [Option.some.inj hb₁, Option.some.inj hb₂]
    · intro heq
      refine ⟨swapTail d₁ a, fun sizeofDst hsize => ?_⟩
      rw [hread t₁ sizeofDst hsize, hread t₂ sizeofDst hsize, hresult₁, hresult₂, heq]
      exact ⟨rfl, rfl⟩

theorem decimal_one_digit {c : UInt8} (h : decimalDigit c = some v) (hv : v < 10) :
    Decimal [c] v where
  ne_nil := by simp
  value := by
    rw [readNumeral, h]
    simp [readNumeral]
  le := by omega
  canonical := by
    intro hc
    rw [List.head?_cons, Option.some.injEq] at hc
    rw [hc]

/-- The unspecified address, written with two colons and as `::0.0.0.0`. -/
theorem inet6_text_form_unspecified :
    (∃ text, text.length < tmpSize ∧
        (∀ size, text.length < size →
          inetNtop .inet6 (List.replicate 16 0) size = some text) ∧
        ∀ sizeofDst, 16 ≤ sizeofDst →
          inetPton .inet6 text sizeofDst = some (List.replicate 16 0)) ∧
      ((∃ b, ∀ sizeofDst, 16 ≤ sizeofDst →
          inetPton .inet6 [58, 58] sizeofDst = some b ∧
            inetPton .inet6 [58, 58, 48, 46, 48, 46, 48, 46, 48] sizeofDst = some b) ↔
        (dotChar ∈ ([58, 58] : List UInt8) ↔
            dotChar ∈ ([58, 58, 48, 46, 48, 46, 48, 46, 48] : List UInt8)) ∨
          ((List.replicate 16 0).drop 12).reverse = (List.replicate 16 (0 : UInt8)).drop 12) := by
  have hzero : Decimal [48] 0 := decimal_one_digit (by decide) (by omega)
  have hdotted : Dotted [48, 46, 48, 46, 48, 46, 48] [0, 0, 0, 0] :=
    ⟨Octets.more hzero (Octets.more hzero (Octets.more hzero (Octets.one hzero))), rfl⟩
  have h₁ : Denotes [58, 58] (List.replicate 16 0) false :=
    Denotes.leading (Or.inl ⟨rfl, rfl, rfl⟩) (by simp)
  have h₂ : Denotes [58, 58, 48, 46, 48, 46, 48, 46, 48] (List.replicate 16 0) true :=
    Denotes.leading (Or.inr (Tail.dotted hdotted)) (by simp)
  exact inet6_text_form ⟨List.replicate 16 0, rfl⟩ h₁ h₂

/-- `::1.2.3.4` and `::102:304` stand for one address, but the bytes read are different. -/
theorem inet6_decimal_end_reversed :
    Denotes [58, 58, 49, 46, 50, 46, 51, 46, 52] (List.replicate 12 0 ++ [1, 2, 3, 4]) true ∧
      Denotes [58, 58, 49, 48, 50, 58, 51, 48, 52] (List.replicate 12 0 ++ [1, 2, 3, 4]) false ∧
      inetPton .inet6 [58, 58, 49, 46, 50, 46, 51, 46, 52] 16 =
        some (List.replicate 12 0 ++ [4, 3, 2, 1]) ∧
      inetPton .inet6 [58, 58, 49, 48, 50, 58, 51, 48, 52] 16 =
        some (List.replicate 12 0 ++ [1, 2, 3, 4]) := by
  have hdotted : Dotted [49, 46, 50, 46, 51, 46, 52] [1, 2, 3, 4] :=
    ⟨Octets.more (@decimal_one_digit 1 _ (by decide) (by omega))
      (Octets.more (@decimal_one_digit 2 _ (by decide) (by omega))
        (Octets.more (@decimal_one_digit 3 _ (by decide) (by omega))
          (Octets.one (@decimal_one_digit 4 _ (by decide) (by omega))))), rfl⟩
  have hhigh : HexGroup [49, 48, 50] 0x102 := ⟨by simp, by simp, by decide⟩
  have hlow : HexGroup [51, 48, 52] 0x304 := ⟨by simp, by simp, by decide⟩
  have h₁ : Denotes [58, 58, 49, 46, 50, 46, 51, 46, 52]
      (List.replicate 12 0 ++ [1, 2, 3, 4]) true :=
    Denotes.leading (Or.inr (Tail.dotted hdotted)) (by simp)
  have h₂ : Denotes [58, 58, 49, 48, 50, 58, 51, 48, 52]
      (List.replicate 12 0 ++ [1, 2, 3, 4]) false :=
    Denotes.leading (Or.inr (Tail.cons hhigh (Tail.last hlow))) (by simp [pair])
  refine ⟨h₁, h₂, ?_, ?_⟩
  · exact inetPton6_iff.mpr ⟨_, true, h₁, rfl⟩
  · exact inetPton6_iff.mpr ⟨_, false, h₂, rfl⟩

end Inet
end Rtcs
end Mqx
