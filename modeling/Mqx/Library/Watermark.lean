import Mathlib.Data.List.Basic
import Mathlib.Logic.Relation
import Mathlib.Algebra.Order.Ring.Nat

/-!
# High water marks

A component hands out ranges of addresses and keeps a mark that is meant to be at least the last
address of every range it has ever handed out. A history is a state of the component with the
ranges of the past.
-/

namespace Watermark

/-- A component: what a call hands out, if anything, and the state it leaves. A call that does
not return is `none`. -/
structure Component (σ γ : Type*) where
  exec : σ → γ → Option (Option (ℕ × ℕ) × σ)
  mark : σ → ℕ

/-- A state, and the first address and the length of every range handed out before it. -/
structure History (σ : Type*) where
  state : σ
  ranges : List (ℕ × ℕ)

/-- The mark is at least the last address of the range. -/
def Covers (mark : ℕ) (p : ℕ × ℕ) : Prop := p.1 + p.2 - 1 ≤ mark

theorem Covers.mono {m n : ℕ} {p : ℕ × ℕ} (h : Covers m p) (hmn : m ≤ n) : Covers n p :=
  Nat.le_trans h hmn

variable {σ γ : Type*} (K : Component σ γ) (Valid meets : σ → γ → Prop)

/-- The mark covers all ranges of the past. -/
def History.Covered (t : History σ) : Prop := ∀ p ∈ t.ranges, Covers (K.mark t.state) p

/-- One call. -/
inductive Step (t : History σ) (c : γ) : History σ → Prop
  | mk {range : Option (ℕ × ℕ)} {s' : σ} (hvalid : Valid t.state c)
      (hexec : K.exec t.state c = some (range, s')) : Step t c ⟨s', range.toList ++ t.ranges⟩

/-- Calls never lower the mark, and `meets` tells when they cover the range that they hand
out. -/
structure Decides : Prop where
  mono : ∀ s c range s', Valid s c → K.exec s c = some (range, s') → K.mark s ≤ K.mark s'
  covers_iff : ∀ s c p s', Valid s c → K.exec s c = some (some p, s') →
    (Covers (K.mark s') p ↔ meets s c)
  none : ∀ s c s', Valid s c → K.exec s c = some (none, s') → meets s c

variable {K Valid meets} {t t' : History σ} {c : γ}

theorem Decides.step (h : Decides K Valid meets) (hstep : Step K Valid t c t') :
    K.mark t.state ≤ K.mark t'.state ∧ (t.Covered K → (t'.Covered K ↔ meets t.state c)) := by
  obtain ⟨hvalid, hexec⟩ := hstep
  rename_i range s'
  have hmono := h.mono _ _ _ _ hvalid hexec
  refine ⟨hmono, fun ht => ?_⟩
  have hold : ∀ p ∈ t.ranges, Covers (K.mark s') p := fun p hp => (ht p hp).mono hmono
  cases range with
  | none =>
    refine iff_of_true ?_ (h.none _ _ _ hvalid hexec)
    intro p hp
    exact hold p (by simpa using hp)
  | some q =>
    rw [← h.covers_iff _ _ _ _ hvalid hexec]
    constructor
    · intro hcov
      exact hcov q (by simp)
    · intro hq p hp
      simp only [Option.toList_some, List.singleton_append, List.mem_cons] at hp
      rcases hp with rfl | hp
      · exact hq
      · exact hold p hp

/-- In a run whose calls all meet the condition the mark covers every range in every state, and
it never decreases. -/
theorem Decides.run (h : Decides K Valid meets)
    (hrun : Relation.ReflTransGen (fun t t' => ∃ c, Step K Valid t c t' ∧ meets t.state c) t t') :
    K.mark t.state ≤ K.mark t'.state ∧ (t.Covered K → t'.Covered K) := by
  induction hrun with
  | refl => exact ⟨Nat.le_refl _, id⟩
  | tail _ hstep ih =>
    obtain ⟨c, hstep, hmeets⟩ := hstep
    obtain ⟨hmono, hcov⟩ := h.step hstep
    exact ⟨Nat.le_trans ih.1 hmono, fun ht => (hcov (ih.2 ht)).mpr hmeets⟩

end Watermark
