import Mathlib.Data.List.Chain
import Mathlib.Data.List.Nodup
import Mathlib.Logic.Function.Basic
import Mathlib.Tactic

/-!
# Lists threaded through successor and predecessor maps

A heap that keeps one map per record field stores a linked list as a successor
map `next` and, when it is doubly linked, a predecessor map `prev`. The two
predicates below relate such maps to the list of nodes they thread. Every edit
of a linked list is an update of the maps at a few nodes, so the lemmas split a
list at a node and discard the updates that miss it.
-/

namespace PointerList

variable {α : Type*}

/-- Following `next` from `a` visits the nodes of the list and arrives at `e`. -/
def Linked (next : α → α) : α → List α → α → Prop
  | a, [], e => a = e
  | a, x :: l, e => a = x ∧ Linked next (next x) l e

/-- Every node's `prev` is the node before it; the first node's is `p`. -/
def BackLinked (prev : α → α) : α → List α → Prop
  | _, [] => True
  | p, x :: l => prev x = p ∧ BackLinked prev x l

@[simp] theorem linked_nil {next : α → α} {a e : α} : Linked next a [] e ↔ a = e := Iff.rfl

@[simp] theorem linked_cons {next : α → α} {a x e : α} {l : List α} :
    Linked next a (x :: l) e ↔ a = x ∧ Linked next (next x) l e := Iff.rfl

@[simp] theorem backLinked_nil {prev : α → α} {p : α} : BackLinked prev p [] := trivial

@[simp] theorem backLinked_cons {prev : α → α} {p x : α} {l : List α} :
    BackLinked prev p (x :: l) ↔ prev x = p ∧ BackLinked prev x l := Iff.rfl

/-- A walk splits at any of its nodes. -/
theorem linked_append_cons {next : α → α} {a x e : α} {l r : List α} :
    Linked next a (l ++ x :: r) e ↔ Linked next a l x ∧ Linked next (next x) r e := by
  induction l generalizing a with
  | nil => simp
  | cons y l ih => simp [ih, and_assoc]

theorem backLinked_append_cons {prev : α → α} {p x : α} {l r : List α} :
    BackLinked prev p (l ++ x :: r) ↔
      BackLinked prev p l ∧ prev x = l.getLastD p ∧ BackLinked prev x r := by
  induction l generalizing p with
  | nil => simp
  | cons y l ih => simp only [List.cons_append, backLinked_cons, ih, List.getLastD_cons, and_assoc]

theorem Linked.congr {next next' : α → α} {a e : α} {l : List α}
    (h : Linked next a l e) (hn : ∀ x ∈ l, next' x = next x) : Linked next' a l e := by
  induction l generalizing a with
  | nil => exact h
  | cons y l ih =>
    refine ⟨h.1, ?_⟩
    rw [hn y (by simp)]
    exact ih h.2 fun x hx => hn x (by simp [hx])

theorem BackLinked.congr {prev prev' : α → α} {p : α} {l : List α}
    (h : BackLinked prev p l) (hp : ∀ x ∈ l, prev' x = prev x) : BackLinked prev' p l := by
  induction l generalizing p with
  | nil => trivial
  | cons y l ih =>
    exact ⟨(hp y (by simp)).trans h.1, ih h.2 fun x hx => hp x (by simp [hx])⟩

/-- The successor of a node is the next node, or the end of the walk. -/
theorem Linked.next_mem {next : α → α} {a e x : α} {l : List α}
    (h : Linked next a l e) (hx : x ∈ l) : next x ∈ l ∨ next x = e := by
  induction l generalizing a with
  | nil => simp at hx
  | cons y l ih =>
    rcases List.mem_cons.mp hx with rfl | hx
    · cases l with
      | nil => exact Or.inr h.2
      | cons z l => exact Or.inl (by simp [h.2.1])
    · exact (ih h.2 hx).imp_left (List.mem_cons_of_mem _)

theorem Linked.head_mem {next : α → α} {a e : α} {l : List α}
    (h : Linked next a l e) (ha : a ≠ e) : a ∈ l := by
  cases l with
  | nil => exact absurd h ha
  | cons y l => simp [h.1]

/-- The predecessor of a node is a node before it, or the one the walk starts behind. -/
theorem BackLinked.prev_mem {prev : α → α} {p x : α} {l : List α}
    (h : BackLinked prev p l) (hx : x ∈ l) : prev x ∈ l ∨ prev x = p := by
  induction l generalizing p with
  | nil => simp at hx
  | cons y l ih =>
    rcases List.mem_cons.mp hx with rfl | hx
    · exact Or.inr h.1
    · rcases ih h.2 hx with hm | he
      · exact Or.inl (List.mem_cons_of_mem _ hm)
      · exact Or.inl (by simp [he])

/-- `prev` undoes `next` inside the list. -/
theorem prev_next {next prev : α → α} {a p e x : α} {l : List α}
    (h : Linked next a l e) (hb : BackLinked prev p l) (hx : x ∈ l) (hn : next x ∈ l)
    (he : e ∉ l) : prev (next x) = x := by
  obtain ⟨l, r, rfl⟩ := List.append_of_mem hx
  rw [linked_append_cons] at h
  rw [backLinked_append_cons] at hb
  cases r with
  | nil =>
    have hxe : next x = e := h.2
    exact absurd (hxe ▸ hn) he
  | cons z r =>
    rw [h.2.1]
    exact hb.2.2.1

/-- A walk that follows the same map from the same node begins with every walk
that does not pass its end. -/
theorem Linked.append_of_linked {next : α → α} {a x e : α} {l r : List α}
    (h : Linked next a l e) (hr : Linked next a r x) (he : e ∉ r) :
    ∃ t, l = r ++ t ∧ Linked next x t e := by
  induction r generalizing a l with
  | nil => exact ⟨l, rfl, hr ▸ h⟩
  | cons y r ih =>
    cases l with
    | nil =>
      have hae : a = e := h
      exact absurd (by simp [← hae, hr.1]) he
    | cons z l =>
      have hzy : z = y := h.1.symm.trans hr.1
      subst hzy
      obtain ⟨t, rfl, ht⟩ := ih h.2 hr.2 (fun hm => he (by simp [hm]))
      exact ⟨t, rfl, ht⟩

/-- A list that ends at `e` and does not contain it is determined by its links. -/
theorem Linked.unique {next : α → α} {a e : α} {l r : List α} (h : Linked next a l e)
    (hr : Linked next a r e) (he : e ∉ l) (he' : e ∉ r) : l = r := by
  obtain ⟨t, rfl, ht⟩ := h.append_of_linked hr he'
  cases t with
  | nil => simp
  | cons x t => exact absurd (by simp [ht.1]) he

/-- A list that ends at `e` and does not contain it visits no node twice. -/
theorem Linked.nodup {next : α → α} {a e : α} {l : List α} (h : Linked next a l e) (he : e ∉ l) :
    l.Nodup := by
  induction l generalizing a with
  | nil => exact List.nodup_nil
  | cons x l ih =>
    have hel : e ∉ l := fun hm => he (List.mem_cons_of_mem _ hm)
    rw [List.nodup_cons]
    refine ⟨fun hx => ?_, ih h.2 hel⟩
    obtain ⟨p, q, rfl⟩ := List.append_of_mem hx
    obtain ⟨-, hq⟩ := linked_append_cons.mp h.2
    -- the walk behind `x` would be as long as the one behind its second visit
    have hsame := h.2.unique hq hel fun hm => hel (by simp [hm])
    have hlen := congrArg List.length hsame
    simp only [List.length_append, List.length_cons] at hlen
    omega

/-- The first node of a list with the property `p`. -/
def FirstOn (next : α → α) (a e : α) (p : α → Prop) (b : α) : Prop :=
  ∃ l r, Linked next a (l ++ b :: r) e ∧ e ∉ l ++ b :: r ∧ (∀ c ∈ l, ¬p c) ∧ p b

theorem FirstOn.mem {next : α → α} {a e b : α} {p : α → Prop} {l : List α}
    (h : FirstOn next a e p b) (hl : Linked next a l e) (he : e ∉ l) : b ∈ l ∧ p b := by
  obtain ⟨f, g, hlink, hnull, -, hb⟩ := h
  rw [hl.unique hlink he hnull]
  exact ⟨by simp, hb⟩

theorem FirstOn.eq {next : α → α} {a e b c : α} {p : α → Prop} (h : FirstOn next a e p b)
    (h' : FirstOn next a e p c) : b = c := by
  classical
  have hfind : ∀ (l r : List α) (x : α), (∀ y ∈ l, ¬p y) → p x →
      (l ++ x :: r).find? (fun y => decide (p y)) = some x := by
    intro l r x hl hx
    rw [List.find?_append, List.find?_eq_none.mpr (by simpa using hl)]
    simp [hx]
  obtain ⟨l, r, hlink, hnull, hl, hb⟩ := h
  obtain ⟨l', r', hlink', hnull', hl', hc⟩ := h'
  have h1 := hfind l r b hl hb
  rw [hlink.unique hlink' hnull hnull', hfind l' r' c hl' hc] at h1
  exact (Option.some.inj h1).symm

variable [DecidableEq α]

theorem linked_update_of_notMem {next : α → α} {a e x v : α} {l : List α} (hx : x ∉ l) :
    Linked (Function.update next x v) a l e ↔ Linked next a l e := by
  have hne : ∀ y ∈ l, Function.update next x v y = next y := fun y hy =>
    Function.update_of_ne (by rintro rfl; exact hx hy) _ _
  exact ⟨fun h => h.congr fun y hy => (hne y hy).symm, fun h => h.congr hne⟩

/-- Leaving out the node behind `p`. -/
theorem Linked.remove {next : α → α} {a e p x : α} {l r : List α}
    (h : Linked next a (l ++ p :: x :: r) e) (hd : (l ++ p :: x :: r).Nodup) :
    Linked (Function.update next p (next x)) a (l ++ p :: r) e := by
  obtain ⟨hl, -, hr⟩ := linked_append_cons.mp h
  have hpl : p ∉ l := fun hp => (List.nodup_append.mp hd).2.2 p hp p (by simp) rfl
  have hpr : p ∉ r := by
    have := (List.nodup_cons.mp (List.nodup_append.mp hd).2.1).1
    exact fun hp => this (by simp [hp])
  rw [linked_append_cons, linked_update_of_notMem hpl, linked_update_of_notMem hpr,
    Function.update_self]
  exact ⟨hl, hr⟩

/-- A new node behind `p`. -/
theorem Linked.insert {next : α → α} {a e p x : α} {l r : List α}
    (h : Linked next a (l ++ p :: r) e) (hd : (l ++ p :: r).Nodup) (hx : x ∉ l ++ p :: r) :
    Linked (Function.update (Function.update next x (next p)) p x) a (l ++ p :: x :: r) e := by
  obtain ⟨hl, hr⟩ := linked_append_cons.mp h
  have hpl : p ∉ l := fun hp => (List.nodup_append.mp hd).2.2 p hp p (by simp) rfl
  have hpr : p ∉ r := (List.nodup_cons.mp (List.nodup_append.mp hd).2.1).1
  have hxp : x ≠ p := by
    rintro rfl
    exact hx (by simp)
  rw [linked_append_cons, linked_update_of_notMem hpl, linked_update_of_notMem fun hm => hx (by simp [hm]),
    Function.update_self, linked_cons, linked_update_of_notMem hpr,
    linked_update_of_notMem fun hm => hx (by simp [hm])]
  simpa [hxp] using ⟨hl, hr⟩

theorem backLinked_update_of_notMem {prev : α → α} {p x v : α} {l : List α} (hx : x ∉ l) :
    BackLinked (Function.update prev x v) p l ↔ BackLinked prev p l := by
  have hne : ∀ y ∈ l, Function.update prev x v y = prev y := fun y hy =>
    Function.update_of_ne (by rintro rfl; exact hx hy) _ _
  exact ⟨fun h => h.congr fun y hy => (hne y hy).symm, fun h => h.congr hne⟩

end PointerList
