import Mathlib.Data.List.Nodup
import Mathlib.Tactic.Common

/-!
# Lists of routes

The routes of one kind at a node of the routing table are a circular list. Here it is the list
of its entries from the head on: `iproute.c` and `route.c` put an entry behind the head, and
look for the one to delete from the second entry on.
-/

namespace Mqx.Rtcs

variable {α : Type*} {x y : α} {l : List α} {test : α → Bool}

/-- A new route stands behind the head. -/
def insertSecond (x : α) : List α → List α
  | [] => [x]
  | head :: l => head :: x :: l

/-- The search of `IP_route_delete` and what it leaves of the list. -/
def deleteRoute (test : α → Bool) : List α → Option α × List α
  | [] => (none, [])
  | head :: l =>
    match l.find? test with
    | some x => (some x, head :: l.eraseP test)
    | none => if test head then (some head, l) else (none, head :: l)

theorem mem_insertSecond : y ∈ insertSecond x l ↔ y = x ∨ y ∈ l := by
  cases l with
  | nil => simp [insertSecond]
  | cons head l =>
    simp only [insertSecond, List.mem_cons]
    tauto

theorem nodup_insertSecond (hx : x ∉ l) (h : l.Nodup) : (insertSecond x l).Nodup := by
  cases l with
  | nil => simp [insertSecond]
  | cons head l =>
    obtain ⟨hhead, hl⟩ := List.nodup_cons.mp h
    obtain ⟨hne, hx⟩ := not_or.mp fun hc => hx (List.mem_cons.mpr hc)
    simp only [insertSecond, List.nodup_cons, List.mem_cons, not_or]
    exact ⟨⟨Ne.symm hne, hhead⟩, hx, hl⟩

/-- The entry found is behind the head, or is the head, or there is none. -/
theorem deleteRoute_cases (test : α → Bool) (head : α) (l : List α) :
    (∃ x before after, l = before ++ x :: after ∧ test x = true ∧
        deleteRoute test (head :: l) = (some x, head :: (before ++ after))) ∨
      (test head = true ∧ deleteRoute test (head :: l) = (some head, l)) ∨
      ((∀ y ∈ head :: l, test y = false) ∧ deleteRoute test (head :: l) = (none, head :: l)) := by
  rw [deleteRoute]
  cases hfind : l.find? test with
  | some x =>
    obtain ⟨htest, before, after, hsplit, hbefore⟩ := List.find?_eq_some_iff_append.mp hfind
    have herase : l.eraseP test = before ++ after := by
      rw [hsplit, List.eraseP_append_right _ fun b hb => by simpa using hbefore b hb,
        List.eraseP_cons_of_pos htest]
    exact .inl ⟨x, before, after, hsplit, htest, by rw [herase]⟩
  | none =>
    have hnone : ∀ y ∈ l, test y = false := by simpa using List.find?_eq_none.mp hfind
    by_cases hhead : test head = true
    · exact .inr (.inl ⟨hhead, if_pos hhead⟩)
    · refine .inr (.inr ⟨fun y hy => ?_, if_neg hhead⟩)
      rcases List.mem_cons.mp hy with rfl | hy
      · exact Bool.eq_false_iff.mpr hhead
      · exact hnone y hy

/-- What is left is a part of the list. -/
theorem deleteRoute_sublist (test : α → Bool) (l : List α) :
    (deleteRoute test l).2.Sublist l := by
  cases l with
  | nil => exact List.Sublist.refl _
  | cons head l =>
    rcases deleteRoute_cases test head l with ⟨x, before, after, rfl, -, h⟩ | ⟨-, h⟩ | ⟨-, h⟩
    · rw [h]
      exact ((List.sublist_cons_self x after).append_left before).cons_cons head
    · rw [h]
      exact List.sublist_cons_self head l
    · rw [h]

/-- The entry that is found is out of the list. -/
theorem deleteRoute_notMem (hl : l.Nodup) (h : (deleteRoute test l).1 = some x) :
    x ∉ (deleteRoute test l).2 := by
  cases l with
  | nil => exact absurd h (by simp [deleteRoute])
  | cons head l =>
    obtain ⟨hhead, hl⟩ := List.nodup_cons.mp hl
    rcases deleteRoute_cases test head l with ⟨y, before, after, rfl, -, hd⟩ | ⟨-, hd⟩ | ⟨-, hd⟩
    · rw [hd] at h ⊢
      obtain rfl : y = x := Option.some.inj h
      have hnot := (List.nodup_cons.mp (List.nodup_middle.mp hl)).1
      have hne : y ≠ head := fun hc => hhead (by simp [← hc])
      simp only [List.mem_cons, not_or]
      exact ⟨hne, hnot⟩
    · rw [hd] at h ⊢
      obtain rfl : head = x := Option.some.inj h
      exact hhead
    · rw [hd] at h
      exact absurd h (by simp)

/-- The other entries stay. -/
theorem mem_deleteRoute (hy : y ∈ l) (hne : (deleteRoute test l).1 ≠ some y) :
    y ∈ (deleteRoute test l).2 := by
  cases l with
  | nil => exact absurd hy List.not_mem_nil
  | cons head l =>
    rcases deleteRoute_cases test head l with ⟨x, before, after, rfl, -, h⟩ | ⟨-, h⟩ | ⟨-, h⟩
    · rw [h] at hne ⊢
      have hyx : y ≠ x := fun hc => hne (by rw [hc])
      simp only [List.mem_cons, List.mem_append] at hy ⊢
      tauto
    · rw [h] at hne ⊢
      have hyh : y ≠ head := fun hc => hne (by rw [hc])
      exact (List.mem_cons.mp hy).resolve_left hyh
    · rw [h]
      exact hy

/-- Where an entry passes the test, one is found. -/
theorem deleteRoute_isSome (hx : x ∈ l) (htest : test x = true) :
    ∃ y ∈ l, test y = true ∧ (deleteRoute test l).1 = some y := by
  cases l with
  | nil => exact absurd hx List.not_mem_nil
  | cons head l =>
    rcases deleteRoute_cases test head l with ⟨y, before, after, rfl, ht, h⟩ | ⟨ht, h⟩ | ⟨hno, -⟩
    · exact ⟨y, by simp, ht, by rw [h]⟩
    · exact ⟨head, by simp, ht, by rw [h]⟩
    · exact absurd htest (by simp [hno x hx])

end Mqx.Rtcs
