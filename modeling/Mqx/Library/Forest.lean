import Mathlib.Data.Finset.Card
import Mathlib.Data.Finset.Lattice.Fold
import Mathlib.Logic.Relation
import Mathlib.Tactic.Common

/-!
# Forests of references

Every node refers to at most one other, its parent. A finite set of nodes is ranked where a parent
is in the set too and has a lower rank. Some nodes are held from outside.
-/

namespace Forest

open Function (update)

variable {α : Type*} {parent parent' : α → Option α} {live : Finset α} {rank : α → ℕ} {x y p q : α}

/-- The parents of `x`, and of these, lead to `y`. -/
def Reaches (parent : α → Option α) : α → α → Prop :=
  Relation.ReflTransGen fun x y => parent x = some y

/-- A parent is in the set, with a lower rank. -/
def Ranked (parent : α → Option α) (live : Finset α) (rank : α → ℕ) : Prop :=
  ∀ x ∈ live, ∀ y, parent x = some y → y ∈ live ∧ rank y < rank x

theorem Ranked.mem_of_reaches (h : Ranked parent live rank) (hx : x ∈ live)
    (hxy : Reaches parent x y) : y ∈ live := by
  induction hxy with
  | refl => exact hx
  | tail _ hy ih => exact (h _ ih _ hy).1

/-- Where every node is held or has a child, every node is reached from a held one. -/
theorem Ranked.exists_reaches (h : Ranked parent live rank) {Held : α → Prop}
    (hsome : ∀ x ∈ live, Held x ∨ ∃ y ∈ live, parent y = some x) (hx : x ∈ live) :
    ∃ d ∈ live, Held d ∧ Reaches parent d x := by
  induction hn : live.sup rank - rank x using Nat.strong_induction_on generalizing x with
  | _ n ih =>
    rcases hsome x hx with hheld | ⟨y, hy, hparent⟩
    · exact ⟨x, hx, hheld, .refl⟩
    · have hlt := (h y hy x hparent).2
      have hle : rank y ≤ live.sup rank := Finset.le_sup hy
      obtain ⟨d, hd, hheld, hreach⟩ := ih (live.sup rank - rank y) (by omega) hy rfl
      exact ⟨d, hd, hheld, hreach.tail hparent⟩

theorem Reaches.congr (hsame : ∀ y, Reaches parent x y → parent' y = parent y)
    (hxy : Reaches parent x y) : Reaches parent' x y := by
  induction hxy with
  | refl => exact .refl
  | tail hxz hz ih => exact ih.tail ((hsame _ hxz).trans hz)

section

variable [DecidableEq α]

/-- A node without a parent gets one that it does not lead up to. -/
theorem Ranked.attach (h : Ranked parent live rank) (hq : q ∈ live)
    (hreach : ¬Reaches parent q p) :
    ∃ rank', Ranked (update parent p (some q)) live rank' := by
  classical
  refine ⟨fun x => if Reaches parent x p then rank x + rank q + 1 else rank x, ?_⟩
  intro x hx y hy
  by_cases hxp : x = p
  · subst hxp
    rw [Function.update_self] at hy
    cases hy
    refine ⟨hq, ?_⟩
    dsimp only
    rw [if_neg hreach, if_pos .refl]
    omega
  · rw [Function.update_of_ne hxp] at hy
    obtain ⟨hmem, hlt⟩ := h x hx y hy
    refine ⟨hmem, ?_⟩
    dsimp only
    by_cases hyp : Reaches parent y p
    · rw [if_pos hyp, if_pos (.head hy hyp)]
      omega
    · rw [if_neg hyp]
      split_ifs <;> omega

/-- The nodes of the set that refer to `x`. -/
def children (parent : α → Option α) (live : Finset α) (x : α) : Finset α :=
  live.filter fun y => parent y = some x

theorem mem_children : y ∈ children parent live x ↔ y ∈ live ∧ parent y = some x :=
  Finset.mem_filter

theorem children_congr (h : ∀ y ∈ live, parent' y = parent y) :
    children parent' live x = children parent live x :=
  Finset.filter_congr fun y hy => by rw [h y hy]

theorem card_children_insert (hp : p ∉ live) (x : α) :
    (children parent (insert p live) x).card =
      (children parent live x).card + if parent p = some x then 1 else 0 := by
  rw [children, Finset.filter_insert]
  split_ifs with h
  · exact Finset.card_insert_of_notMem fun hc => hp (Finset.mem_filter.1 hc).1
  · rfl

theorem card_children_erase (hp : p ∈ live) (x : α) :
    (children parent live x).card =
      (children parent (live.erase p) x).card + if parent p = some x then 1 else 0 := by
  have h := @card_children_insert _ parent (live.erase p) p _ (Finset.notMem_erase p live) x
  rwa [Finset.insert_erase hp] at h

theorem card_children_attach (hp : p ∈ live) (hnone : parent p = none) (x : α) :
    (children (update parent p (some q)) live x).card =
      (children parent live x).card + if q = x then 1 else 0 := by
  rw [card_children_erase hp, @card_children_erase _ parent _ _ _ hp, hnone, Function.update_self,
    children_congr fun y hy => Function.update_of_ne (Finset.ne_of_mem_erase hy) _ _]
  simp

end

end Forest
