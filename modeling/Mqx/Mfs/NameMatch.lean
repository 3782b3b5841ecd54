import Mathlib.Data.List.Chain
import Mqx.Mfs.ShortName

/-!
# Search strings with wildcards

Model of `MFS_lfn_match`. The matcher walks through the search string; at a star it calls itself
for every place of the name from there on, one level deeper.
-/

namespace Mqx.Mfs

def starChar : Byte := 0x2A
def questionChar : Byte := 0x3F

/-- The checks that `MFS_lfn_match` makes before its loop. -/
def matchEntry (searchPtr lfn : List Byte) (loop : Bool) : Bool :=
  if searchPtr = [] then true else if lfn = [] then false else loop

/-- The inner loop over the places of the name, up to the first that matches. -/
def matchFrom (found : List Byte → Bool) : List Byte → Bool
  | [] => false
  | d :: lfn => if found (d :: lfn) then true else matchFrom found lfn

/-- The loop of `MFS_lfn_match`. -/
def matchLoop : List Byte → List Byte → ℕ → Bool
  | [], lfn, _ => if lfn ≠ [] then false else true
  | c :: searchPtr, [], _ =>
    if c = starChar ∨ c = questionChar then (if searchPtr = [] then true else false) else false
  | c :: searchPtr, d :: lfn, level =>
    if c = questionChar then matchLoop searchPtr lfn level
    else if c = starChar then
      if level > 3 then false
      else if matchFrom (fun l => matchEntry searchPtr l (matchLoop searchPtr l (level + 1)))
        (d :: lfn) then true
      -- the name is used up
      else matchLoop searchPtr [] level
    else if capitalize c ≠ capitalize d then false
    else matchLoop searchPtr lfn level

/-- `MFS_lfn_match`. -/
def mfsLfnMatch (searchPtr lfn : List Byte) (level : ℕ) : Bool :=
  matchEntry searchPtr lfn (matchLoop searchPtr lfn level)

/-! ## What a search string stands for -/

/-- A wildcard. -/
def Wild (c : Byte) : Prop := c = starChar ∨ c = questionChar

instance : DecidablePred Wild := fun c =>
  inferInstanceAs (Decidable (c = starChar ∨ c = questionChar))

/-- The name matches the search string: a star stands for any string, a question mark for one
character and at the end also for none, and other characters match in upper or lower case. -/
inductive WildMatch : List Byte → List Byte → Prop
  | nil : WildMatch [] []
  | char {c d : Byte} {p s : List Byte} (hwild : ¬ Wild c)
      (hcase : capitalize c = capitalize d) (h : WildMatch p s) : WildMatch (c :: p) (d :: s)
  | one {d : Byte} {p s : List Byte} (h : WildMatch p s) :
      WildMatch (questionChar :: p) (d :: s)
  | last : WildMatch [questionChar] []
  | star {p s : List Byte} (t : List Byte) (h : WildMatch p s) :
      WildMatch (starChar :: p) (t ++ s)

/-- No two wildcards stand side by side. -/
def NoAdjacent (p : List Byte) : Prop := p.IsChain fun c d => ¬ (Wild c ∧ Wild d)

/-! ## The matcher -/

variable {c d : Byte} {p s l : List Byte} {level : ℕ} {found : List Byte → Bool}

theorem matchFrom_iff :
    matchFrom found l = true ↔ ∃ t u, l = t ++ u ∧ u ≠ [] ∧ found u = true := by
  induction l with
  | nil => simp [matchFrom]
  | cons d l ih =>
    rw [matchFrom]
    by_cases hfound : found (d :: l) = true
    · rw [if_pos hfound]
      exact ⟨fun _ => ⟨[], d :: l, rfl, by simp, hfound⟩, fun _ => rfl⟩
    · rw [if_neg hfound, ih]
      constructor
      · rintro ⟨t, u, rfl, hu, hfu⟩
        exact ⟨d :: t, u, rfl, hu, hfu⟩
      · rintro ⟨t, u, htu, hu, hfu⟩
        cases t with
        | nil =>
          rw [List.nil_append] at htu
          rw [htu] at hfound
          exact absurd hfu hfound
        | cons e t => exact ⟨t, u, (List.cons.inj htu).2, hu, hfu⟩

/-- Each character of the search string with what the rest has to match. -/
theorem wildMatch_cons_iff : WildMatch (c :: p) s ↔
    if c = starChar then ∃ t u, s = t ++ u ∧ WildMatch p u
    else if c = questionChar then s = [] ∧ p = [] ∨ ∃ d u, s = d :: u ∧ WildMatch p u
    else ∃ d u, s = d :: u ∧ capitalize c = capitalize d ∧ WildMatch p u := by
  have hne : questionChar ≠ starChar := by decide
  constructor
  · intro h
    generalize hq : c :: p = q at h
    cases h with
    | nil => simp at hq
    | char hwild hcase h =>
      obtain ⟨rfl, rfl⟩ := List.cons.inj hq
      obtain ⟨hstar, hquestion⟩ := not_or.mp hwild
      rw [if_neg hstar, if_neg hquestion]
      exact ⟨_, _, rfl, hcase, h⟩
    | one h =>
      obtain ⟨rfl, rfl⟩ := List.cons.inj hq
      rw [if_neg hne, if_pos rfl]
      exact Or.inr ⟨_, _, rfl, h⟩
    | last =>
      obtain ⟨rfl, rfl⟩ := List.cons.inj hq
      rw [if_neg hne, if_pos rfl]
      exact Or.inl ⟨rfl, rfl⟩
    | star t h =>
      obtain ⟨rfl, rfl⟩ := List.cons.inj hq
      rw [if_pos rfl]
      exact ⟨t, _, rfl, h⟩
  · intro h
    split_ifs at h with hstar hquestion
    · obtain ⟨t, u, rfl, h⟩ := h
      exact hstar ▸ WildMatch.star t h
    · rcases h with ⟨rfl, rfl⟩ | ⟨d, u, rfl, h⟩
      · exact hquestion ▸ WildMatch.last
      · exact hquestion ▸ WildMatch.one h
    · obtain ⟨d, u, rfl, hcase, h⟩ := h
      exact WildMatch.char (not_or.mpr ⟨hstar, hquestion⟩) hcase h

theorem wildMatch_nil_left : WildMatch [] s ↔ s = [] := by
  constructor
  · intro h
    cases h
    rfl
  · rintro rfl
    exact WildMatch.nil

theorem not_wildMatch_nil (hwild : ¬ Wild c) : ¬ WildMatch (c :: p) [] := by
  obtain ⟨hstar, hquestion⟩ := not_or.mp hwild
  rw [wildMatch_cons_iff, if_neg hstar, if_neg hquestion]
  simp

/-- Only a wildcard at its end lets a search string match the empty name. -/
theorem wildMatch_nil_iff (h : NoAdjacent (c :: p)) :
    WildMatch (c :: p) [] ↔ Wild c ∧ p = [] := by
  constructor
  · intro hmatch
    by_cases hstar : c = starChar
    · rw [wildMatch_cons_iff, if_pos hstar] at hmatch
      obtain ⟨t, u, htu, hu⟩ := hmatch
      obtain rfl := (List.append_eq_nil_iff.mp htu.symm).2
      cases p with
      | nil => exact ⟨Or.inl hstar, rfl⟩
      | cons e p =>
        have hpair := (List.isChain_cons.mp h).1 e rfl
        exact absurd hu (not_wildMatch_nil fun he => hpair ⟨Or.inl hstar, he⟩)
    · by_cases hquestion : c = questionChar
      · rw [wildMatch_cons_iff, if_neg hstar, if_pos hquestion] at hmatch
        simpa [Wild, hquestion] using hmatch
      · exact absurd hmatch (not_wildMatch_nil (not_or.mpr ⟨hstar, hquestion⟩))
  · rintro ⟨rfl | rfl, rfl⟩
    · exact WildMatch.star [] WildMatch.nil
    · exact WildMatch.last

/-- At a star: the name is split before one of its characters, or used up. -/
theorem matchStar_iff (ih : ∀ {u : List Byte} {k : ℕ}, k + p.count starChar ≤ 4 →
      (matchLoop p u k = true ↔ WildMatch p u))
    (hlevel : level + (p.count starChar + 1) ≤ 4) :
    (matchFrom (fun l => matchEntry p l (matchLoop p l (level + 1))) s = true ∨
        matchLoop p [] level = true) ↔ ∃ t u, s = t ++ u ∧ WildMatch p u := by
  have hentry : ∀ u : List Byte, u ≠ [] →
      (matchEntry p u (matchLoop p u (level + 1)) = true ↔ p = [] ∨ WildMatch p u) := by
    intro u hu
    rw [matchEntry, if_neg hu]
    by_cases hp : p = []
    · simp [hp]
    · simpa [hp] using ih (by omega)
  rw [matchFrom_iff, ih (by omega)]
  constructor
  · rintro (⟨t, u, rfl, hu, hfound⟩ | hnil)
    · rcases (hentry u hu).mp hfound with rfl | hmatch
      · exact ⟨t ++ u, [], by rw [List.append_nil], WildMatch.nil⟩
      · exact ⟨t, u, rfl, hmatch⟩
    · exact ⟨s, [], by rw [List.append_nil], hnil⟩
  · rintro ⟨t, u, rfl, hmatch⟩
    by_cases hu : u = []
    · exact Or.inr (hu ▸ hmatch)
    · exact Or.inl ⟨t, u, rfl, hu, (hentry u hu).mpr (Or.inr hmatch)⟩

/-- The loop decides the match as long as the stars do not take it below the fourth level. -/
theorem matchLoop_iff (h : NoAdjacent p) (hlevel : level + p.count starChar ≤ 4) :
    matchLoop p s level = true ↔ WildMatch p s := by
  induction p generalizing s level with
  | nil =>
    rw [wildMatch_nil_left, matchLoop]
    simp
  | cons c p ih =>
    have hrest : NoAdjacent p := (List.isChain_cons.mp h).2
    cases s with
    | nil =>
      rw [wildMatch_nil_iff h, matchLoop]
      simp [Wild]
    | cons d s =>
      rw [wildMatch_cons_iff, matchLoop]
      by_cases hstar : c = starChar
      · have hne : starChar ≠ questionChar := by decide
        rw [hstar, List.count_cons_self] at hlevel
        rw [if_neg (by rw [hstar]; exact hne), if_pos hstar, if_neg (by omega), if_pos hstar,
          ← matchStar_iff (fun hk => ih hrest hk) hlevel]
        split_ifs with hfrom
        · exact ⟨fun _ => Or.inl hfrom, fun _ => rfl⟩
        · exact ⟨Or.inr, fun h => h.resolve_left hfrom⟩
      · rw [List.count_cons_of_ne hstar] at hlevel
        have hnext := @ih s level hrest hlevel
        by_cases hquestion : c = questionChar
        · rw [if_pos hquestion, if_neg hstar, if_pos hquestion, hnext]
          simp
        · rw [if_neg hquestion, if_neg hstar, if_neg hstar, if_neg hquestion]
          by_cases hcase : capitalize c = capitalize d
          · simp [hcase, hnext]
          · simp [hcase]

/-- `MFS_lfn_match` decides whether a name matches a search string that is not empty. -/
theorem lfn_match_wild (p s : List Byte) (hp : p ≠ []) (hs : s ≠ [])
    (hstars : p.count starChar ≤ 4) (hadj : NoAdjacent p) :
    mfsLfnMatch p s 0 = true ↔ WildMatch p s := by
  rw [mfsLfnMatch, matchEntry, if_neg hp, if_neg hs]
  exact matchLoop_iff hadj (by omega)

/-- The search string `*.?` matches the name `a.` in upper case. -/
theorem lfn_match_wild_dot : WildMatch [starChar, dotChar, questionChar] [0x41, dotChar] :=
  (lfn_match_wild [starChar, dotChar, questionChar] [0x41, dotChar] (by decide) (by decide)
    (by decide) (by rw [NoAdjacent]; decide)).mp (by decide)

/-- The empty search string matches every name. -/
theorem lfn_match_empty :
    ¬ ∀ p s : List Byte, p.count starChar ≤ 4 → NoAdjacent p → s ≠ [] →
      (mfsLfnMatch p s 0 = true ↔ WildMatch p s) := by
  intro h
  have hempty := (h [] [0x41] (by decide) (by rw [NoAdjacent]; decide) (by decide)).mp (by decide)
  cases hempty

end Mqx.Mfs
