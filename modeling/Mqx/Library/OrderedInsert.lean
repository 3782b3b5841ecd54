import Mathlib.Data.List.Sort
import Mathlib.Tactic

/-!
# Insertion by a test

A loop that walks along a list until a test holds and inserts there is
`List.orderedInsert` of the test. The test may be strict, so that elements with
equal keys keep the order of their insertion, while the list is sorted by a
relation of its own.
-/

namespace List

variable {α : Type*} {r R : α → α → Prop} [DecidableRel r]

/-- The list stays sorted when the test decides the order between the new element and
every other one. -/
theorem pairwise_orderedInsert {a : α} {l : List α} (hl : l.Pairwise R)
    (htrans : ∀ b ∈ l, ∀ c ∈ l, r a b → R b c → R a c)
    (hbefore : ∀ b ∈ l, r a b → R a b) (hafter : ∀ b ∈ l, ¬r a b → R b a) :
    (l.orderedInsert r a).Pairwise R := by
  induction l with
  | nil => simp
  | cons b l ih =>
    obtain ⟨hb, hl⟩ := pairwise_cons.mp hl
    by_cases h : r a b
    · rw [orderedInsert_cons, if_pos h]
      refine pairwise_cons.mpr ⟨?_, pairwise_cons.mpr ⟨hb, hl⟩⟩
      intro c hc
      rcases mem_cons.mp hc with rfl | hc'
      · exact hbefore c (by simp) h
      · exact htrans b (by simp) c hc h (hb c hc')
    · rw [orderedInsert_cons, if_neg h]
      refine pairwise_cons.mpr ⟨?_, ?_⟩
      · intro c hc
        rcases (mem_orderedInsert r).mp hc with rfl | hc
        · exact hafter b (by simp) h
        · exact hb c hc
      · apply ih hl
        · intro c hc d hd
          exact htrans c (by simp [hc]) d (by simp [hd])
        · intro c hc
          exact hbefore c (by simp [hc])
        · intro c hc
          exact hafter c (by simp [hc])

theorem nodup_orderedInsert {a : α} {l : List α} (hl : l.Nodup) (ha : a ∉ l) :
    (l.orderedInsert r a).Nodup :=
  (perm_orderedInsert r a l).nodup_iff.mpr (nodup_cons.mpr ⟨ha, hl⟩)

end List
