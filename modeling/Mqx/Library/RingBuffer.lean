import Mathlib.Data.List.Basic
import Mathlib.Tactic.Common

/-!
# Ring buffers

A list kept in the slots of a ring of fixed size, from a position on.
-/

variable {α : Type*} {n pos : ℕ} {slots slots' : ℕ → α} {l : List α} {m : α}

/-- The slots of a ring of size `n`, from `pos` on, hold the list. -/
structure HoldsFrom (n : ℕ) (slots : ℕ → α) (pos : ℕ) (l : List α) : Prop where
  pos_lt : pos < n
  length_le : l.length ≤ n
  slot : ∀ j m, l[j]? = some m → slots ((pos + j) % n) = m

namespace HoldsFrom

theorem nil (h : pos < n) : HoldsFrom n slots pos [] := ⟨h, Nat.zero_le _, by simp⟩

/-- Different places of the list are in different slots. -/
theorem slot_ne {j : ℕ} (hpos : pos < n) (hj : j < l.length) (hl : l.length < n) :
    (pos + j) % n ≠ (pos + l.length) % n := by
  intro h
  rcases Nat.lt_or_ge (pos + j) n with h₁ | h₁ <;>
    rcases Nat.lt_or_ge (pos + l.length) n with h₂ | h₂
  · rw [Nat.mod_eq_of_lt h₁, Nat.mod_eq_of_lt h₂] at h
    omega
  · rw [Nat.mod_eq_of_lt h₁, Nat.mod_eq_sub_mod h₂, Nat.mod_eq_of_lt (by omega)] at h
    omega
  · omega
  · rw [Nat.mod_eq_sub_mod h₁, Nat.mod_eq_sub_mod h₂, Nat.mod_eq_of_lt (by omega),
      Nat.mod_eq_of_lt (by omega)] at h
    omega

/-- The slot behind the list is filled. -/
theorem push (h : HoldsFrom n slots pos l) (hl : l.length < n)
    (hnew : slots' ((pos + l.length) % n) = m)
    (hold : ∀ i < n, i ≠ (pos + l.length) % n → slots' i = slots i) :
    HoldsFrom n slots' pos (l ++ [m]) := by
  refine ⟨h.pos_lt, by rw [List.length_append]; exact hl, ?_⟩
  intro j a hj
  have hn : 0 < n := Nat.zero_lt_of_lt hl
  rcases Nat.lt_or_ge j l.length with hlt | hge
  · rw [List.getElem?_append_left hlt] at hj
    rw [hold _ (Nat.mod_lt _ hn) (slot_ne h.pos_lt hlt hl)]
    exact h.slot j a hj
  · rw [List.getElem?_append_right hge, List.getElem?_singleton] at hj
    split_ifs at hj with h0
    have hjl : j = l.length := by omega
    subst hjl
    exact hnew.trans (Option.some.inj hj)

/-- The first slot is emptied. -/
theorem pop (h : HoldsFrom n slots pos (m :: l)) :
    slots pos = m ∧ HoldsFrom n slots ((pos + 1) % n) l := by
  have hn : 0 < n := Nat.zero_lt_of_lt h.pos_lt
  constructor
  · have h0 := h.slot 0 m rfl
    rwa [Nat.add_zero, Nat.mod_eq_of_lt h.pos_lt] at h0
  · refine ⟨Nat.mod_lt _ hn, Nat.le_of_succ_le h.length_le, ?_⟩
    intro j a hj
    rw [Nat.mod_add_mod, Nat.add_assoc, Nat.add_comm 1 j]
    exact h.slot (j + 1) a hj

end HoldsFrom
