import Mathlib.Data.List.Basic
import Mathlib.Tactic.Common

/-!
# Lists in memory

A memory holds a list from an index on.
-/

variable {α : Type*} {f g : ℕ → α} {i j : ℕ} {l k : List α} {v : α}

/-- The memory holds the list from an index on. -/
def HoldsAt (f : ℕ → α) : ℕ → List α → Prop
  | _, [] => True
  | i, v :: l => f i = v ∧ HoldsAt f (i + 1) l

/-- Only the places of the list count. -/
theorem HoldsAt.congr (h : HoldsAt f i l) (hg : ∀ j, i ≤ j → j < i + l.length → g j = f j) :
    HoldsAt g i l := by
  induction l generalizing i with
  | nil => trivial
  | cons v l ih =>
    obtain ⟨hv, hl⟩ := h
    rw [List.length_cons] at hg
    refine ⟨?_, ih hl fun j hij hj => hg j (by omega) (by omega)⟩
    rw [hg i (by omega) (by omega), hv]

theorem holdsAt_append :
    HoldsAt f i (l ++ k) ↔ HoldsAt f i l ∧ HoldsAt f (i + l.length) k := by
  induction l generalizing i with
  | nil => simp [HoldsAt]
  | cons v l ih =>
    rw [List.cons_append, HoldsAt, HoldsAt, ih, List.length_cons, and_assoc, Nat.add_assoc,
      Nat.add_comm 1]

theorem holdsAt_succ : HoldsAt f (i + 1) l ↔ HoldsAt (fun j => f (j + 1)) i l := by
  induction l generalizing i with
  | nil => rfl
  | cons v l ih =>
    rw [HoldsAt, HoldsAt, ih]

/-- A store outside the list keeps it. -/
theorem HoldsAt.update (h : HoldsAt f i l) (hj : j < i ∨ i + l.length ≤ j) :
    HoldsAt (Function.update f j v) i l :=
  h.congr fun k hik hk => Function.update_of_ne (by omega) v f
