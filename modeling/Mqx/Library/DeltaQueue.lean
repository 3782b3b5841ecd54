import Mathlib.Algebra.Order.Group.Int
import Mathlib.Tactic.Common

/-!
# Delta-coded queues

The nodes of a queue are ordered by their deadlines, and each holds the time from the
deadline of its predecessor to its own. The first one counts from a base.
-/

namespace DeltaQueue

variable {α : Type*} {δ δ' D D' : α → ℤ} {b x : ℤ} {l r : List α} {i : α}

/-- The nodes hold the differences of the deadlines `D`, from `b` on. -/
def Coded (δ D : α → ℤ) : ℤ → List α → Prop
  | _, [] => True
  | b, i :: l => b ≤ D i ∧ δ i = D i - b ∧ Coded δ D (D i) l

/-- The last deadline, or the base if there is no node. -/
def edge (D : α → ℤ) : ℤ → List α → ℤ
  | b, [] => b
  | _, i :: l => edge D (D i) l

@[simp] theorem coded_nil : Coded δ D b [] := trivial

@[simp] theorem coded_cons : Coded δ D b (i :: l) ↔ b ≤ D i ∧ δ i = D i - b ∧ Coded δ D (D i) l :=
  Iff.rfl

@[simp] theorem edge_nil : edge D b [] = b := rfl

@[simp] theorem edge_cons : edge D b (i :: l) = edge D (D i) l := rfl

theorem edge_append : edge D b (l ++ r) = edge D (edge D b l) r := by
  induction l generalizing b with
  | nil => rfl
  | cons j l ih => exact ih

theorem coded_append : Coded δ D b (l ++ r) ↔ Coded δ D b l ∧ Coded δ D (edge D b l) r := by
  induction l generalizing b with
  | nil => simp
  | cons j l ih => simp [ih, and_assoc]

theorem Coded.congr (h : Coded δ D b l) (hδ : ∀ j ∈ l, δ' j = δ j) (hD : ∀ j ∈ l, D' j = D j) :
    Coded δ' D' b l := by
  induction l generalizing b with
  | nil => trivial
  | cons j l ih =>
    obtain ⟨hle, hj, hl⟩ := h
    have hDj := hD j List.mem_cons_self
    refine ⟨by omega, by rw [hδ j List.mem_cons_self, hj, hDj], ?_⟩
    rw [hDj]
    exact ih hl (fun k hk => hδ k (List.mem_cons_of_mem j hk))
      fun k hk => hD k (List.mem_cons_of_mem j hk)

theorem edge_congr (hD : ∀ j ∈ l, D' j = D j) : edge D' b l = edge D b l := by
  induction l generalizing b with
  | nil => rfl
  | cons j l ih =>
    rw [edge_cons, edge_cons, hD j List.mem_cons_self]
    exact ih fun k hk => hD k (List.mem_cons_of_mem j hk)

theorem Coded.le_edge (h : Coded δ D b l) : b ≤ edge D b l := by
  induction l generalizing b with
  | nil => exact le_refl b
  | cons j l ih => exact le_trans h.1 (ih h.2.2)

theorem Coded.le (h : Coded δ D b l) (hi : i ∈ l) : b ≤ D i := by
  induction l generalizing b with
  | nil => exact absurd hi List.not_mem_nil
  | cons j l ih =>
    rcases List.mem_cons.mp hi with rfl | hi
    · exact h.1
    · exact le_trans h.1 (ih h.2.2 hi)

/-- The deltas are not negative, and none is more than what is left until its deadline. -/
theorem Coded.bounds (h : Coded δ D b l) (hi : i ∈ l) : 0 ≤ δ i ∧ δ i ≤ D i - b := by
  induction l generalizing b with
  | nil => exact absurd hi List.not_mem_nil
  | cons j l ih =>
    rcases List.mem_cons.mp hi with rfl | hi
    · have hle := h.1
      have hj := h.2.1
      exact ⟨by omega, by omega⟩
    · have hle := h.1
      have hl := ih h.2.2 hi
      exact ⟨hl.1, by omega⟩

/-- Another base: the first node makes up for it. -/
theorem Coded.rebase (h : Coded δ D b l) (hle : ∀ j ∈ l.head?, x ≤ D j)
    (hhead : ∀ j ∈ l.head?, δ' j = δ j + (b - x)) (htail : ∀ j ∈ l.tail, δ' j = δ j) :
    Coded δ' D x l := by
  cases l with
  | nil => trivial
  | cons j l =>
    obtain ⟨-, hj, hl⟩ := h
    refine ⟨hle j rfl, ?_, hl.congr htail fun _ _ => rfl⟩
    rw [hhead j rfl, hj]
    omega

/-- A node goes in where the deadlines pass its own; its successor counts from there. -/
theorem Coded.insert (h : Coded δ D b (l ++ r)) (hi : i ∉ l ++ r) (hD : ∀ j, j ≠ i → D' j = D j)
    (hlow : edge D b l ≤ D' i) (hhigh : ∀ j ∈ r.head?, D' i ≤ D j)
    (hδi : δ' i = D' i - edge D b l) (hδl : ∀ j ∈ l, δ' j = δ j)
    (hhead : ∀ j ∈ r.head?, δ' j = δ j - (D' i - edge D b l)) (htail : ∀ j ∈ r.tail, δ' j = δ j) :
    Coded δ' D' b (l ++ i :: r) := by
  obtain ⟨hl, hr⟩ := coded_append.mp h
  have hDl : ∀ j ∈ l, D' j = D j := fun j hj =>
    hD j fun hc => hi (hc ▸ List.mem_append_left r hj)
  have hDr : ∀ j ∈ r, D' j = D j := fun j hj =>
    hD j fun hc => hi (hc ▸ List.mem_append_right l hj)
  rw [coded_append, coded_cons, edge_congr hDl]
  have hnew : Coded δ' D (D' i) r := by
    refine hr.rebase hhigh (fun j hj => ?_) htail
    rw [hhead j hj]
    omega
  exact ⟨hl.congr hδl hDl, hlow, hδi, hnew.congr (fun _ _ => rfl) hDr⟩

/-- A node goes; its successor counts from its predecessor. -/
theorem Coded.remove (h : Coded δ D b (l ++ i :: r)) (hδl : ∀ j ∈ l, δ' j = δ j)
    (hhead : ∀ j ∈ r.head?, δ' j = δ j + δ i) (htail : ∀ j ∈ r.tail, δ' j = δ j) :
    Coded δ' D b (l ++ r) := by
  obtain ⟨hl, hlow, hδi, hr⟩ := coded_append.mp h
  rw [coded_append]
  refine ⟨hl.congr hδl fun _ _ => rfl, hr.rebase (fun j hj => ?_) (fun j hj => ?_) htail⟩
  · exact le_trans hlow (hr.le (List.mem_of_mem_head? hj))
  · rw [hhead j hj, hδi]

end DeltaQueue
