import Mqx.Library.Linked

/-!
# Rings through a header

A queue whose header is an element of its own ring: following `next` from the header
visits the members and comes back to it, and `prev` leads the other way round. Edits are
stated on the whole ring, the header in front, so that the header needs no cases.
Elements that are not on the ring keep their links.
-/

namespace PointerList

/-- The two links of every element. -/
structure Links (α : Type*) where
  next : α → α
  prev : α → α

namespace Links

variable {α : Type*}

/-- The links thread the members `l` behind the header `h`. -/
structure Holds (r : Links α) (h : α) (l : List α) : Prop where
  linked : Linked r.next h (h :: l) h
  back : BackLinked r.prev (l.getLastD h) (h :: l)
  nodup : (h :: l).Nodup

variable {r : Links α} {h : α} {l : List α}

theorem Holds.next_eq (w : r.Holds h l) {a b : List α} {p : α} (hs : h :: l = a ++ p :: b) :
    r.next p = b.headD h := by
  have hl := w.linked
  rw [hs, linked_append_cons] at hl
  cases b with
  | nil => exact hl.2
  | cons x b => exact hl.2.1

theorem Holds.prev_eq (w : r.Holds h l) {a b : List α} {p x : α}
    (hs : h :: l = a ++ p :: x :: b) : r.prev x = p := by
  have hb := w.back
  have hs' : a ++ p :: x :: b = (a ++ [p]) ++ x :: b := by simp
  rw [hs, hs', backLinked_append_cons] at hb
  rw [hb.2.1, List.getLastD_concat]

/-- Other elements do not matter. -/
theorem Holds.congr {r' : Links α} (w : r.Holds h l) (hn : ∀ x ∈ h :: l, r'.next x = r.next x)
    (hp : ∀ x ∈ h :: l, r'.prev x = r.prev x) : r'.Holds h l :=
  ⟨w.linked.congr hn, w.back.congr hp, w.nodup⟩

theorem getLastD_tail {a b : List α} {h p : α} {l : List α} (hs : h :: l = a ++ p :: b) :
    l.getLastD h = b.getLastD p := by
  have hlast : (h :: l).getLastD h = (a ++ p :: b).getLastD h := by rw [hs]
  rw [List.getLastD_cons] at hlast
  rw [hlast]
  simp [List.getLastD_eq_getLast?, List.getLast?_cons]

theorem Holds.next_mem (w : r.Holds h l) {x : α} (hx : x ∈ h :: l) : r.next x ∈ h :: l := by
  obtain ⟨a, b, hab⟩ := List.append_of_mem hx
  rw [w.next_eq hab]
  cases b with
  | nil => exact List.mem_cons_self
  | cons y b =>
    rw [hab]
    simp

theorem Holds.prev_mem (w : r.Holds h l) {x : α} (hx : x ∈ h :: l) : r.prev x ∈ h :: l := by
  obtain ⟨a, b, hab⟩ := List.append_of_mem hx
  rcases List.eq_nil_or_concat a with rfl | ⟨a, p, rfl⟩
  · have hback := w.back.1
    rw [← (List.cons.inj hab).1, hback, List.getLastD_eq_getLast?]
    cases hlast : l.getLast? with
    | none => exact List.mem_cons_self
    | some y => exact List.mem_cons_of_mem _ (List.mem_of_getLast? hlast)
  · have hs : h :: l = a ++ p :: x :: b := by simp [hab]
    rw [w.prev_eq hs, hs]
    simp

variable [DecidableEq α]

/-- Take `x` out of its ring; the links of `x` itself stay. -/
def unlink (r : Links α) (x : α) : Links α where
  next := Function.update r.next (r.prev x) (r.next x)
  prev := Function.update r.prev (r.next x) (r.prev x)

/-- Put `x` right behind `p`. -/
def link (r : Links α) (p x : α) : Links α where
  next := Function.update (Function.update r.next x (r.next p)) p x
  prev := Function.update (Function.update r.prev x p) (r.next p) x

section Frame

variable {p x y : α}

theorem unlink_next_of_ne (hp : y ≠ r.prev x) : (r.unlink x).next y = r.next y :=
  Function.update_of_ne hp _ _

theorem unlink_prev_of_ne (hn : y ≠ r.next x) : (r.unlink x).prev y = r.prev y :=
  Function.update_of_ne hn _ _

theorem link_next_of_ne (hx : y ≠ x) (hp : y ≠ p) : (r.link p x).next y = r.next y :=
  (Function.update_of_ne hp _ _).trans (Function.update_of_ne hx _ _)

theorem link_prev_of_ne (hx : y ≠ x) (hn : y ≠ r.next p) : (r.link p x).prev y = r.prev y :=
  (Function.update_of_ne hn _ _).trans (Function.update_of_ne hx _ _)

end Frame

theorem Holds.unlink (w : r.Holds h l) {a b l' : List α} {p x : α}
    (hs : h :: l = a ++ p :: x :: b) (hs' : h :: l' = a ++ p :: b) :
    (r.unlink x).Holds h l' := by
  have hnext := w.next_eq (a := a ++ [p]) (p := x) (b := b) (by simp [hs])
  have hprev := w.prev_eq hs
  have hlast := getLastD_tail (a := a) (p := p) (b := x :: b) hs
  have hlast' := getLastD_tail hs'
  have hnd := w.nodup
  have hl := w.linked
  have hb := w.back
  rw [hs, linked_append_cons, linked_cons] at hl
  rw [hs, backLinked_append_cons, backLinked_cons] at hb
  rw [hs] at hnd
  have hnd' : (a ++ p :: b).Nodup :=
    hnd.sublist ((List.Sublist.refl a).append ((List.sublist_cons_self x b).cons_cons p))
  obtain ⟨hpa, hpb⟩ : p ∉ a ∧ p ∉ b := by
    have hcons := List.nodup_cons.mp (List.nodup_middle.mp hnd')
    simpa using hcons.1
  have hlink : Linked (r.unlink x).next h (a ++ p :: b) h := by
    simp only [Links.unlink, hprev]
    rw [linked_append_cons, Function.update_self]
    exact ⟨(linked_update_of_notMem hpa).mpr hl.1, (linked_update_of_notMem hpb).mpr hl.2.2⟩
  refine ⟨hs' ▸ hlink, ?_, hs' ▸ hnd'⟩
  rw [hs', hlast']
  simp only [Links.unlink, hprev, hnext]
  rw [hlast] at hb
  cases b with
  | nil =>
    -- `x` was the last one: the header gets a new predecessor
    simp only [List.headD_nil, List.getLastD_nil, List.getLastD_cons] at hb ⊢
    cases a with
    | nil => exact ⟨by rw [(List.cons.inj hs').1, Function.update_self], trivial⟩
    | cons y a =>
      have hy : h = y := (List.cons.inj hs').1
      subst hy
      have hha : h ∉ a := by
        have hcons := List.nodup_cons.mp hnd'
        simpa using fun hm => hcons.1 (List.mem_append_left _ hm)
      have hhp : p ≠ h := by
        rintro rfl
        exact hpa List.mem_cons_self
      rw [List.cons_append, backLinked_cons, Function.update_self]
      refine ⟨rfl, ?_⟩
      rw [backLinked_append_cons, Function.update_of_ne hhp]
      refine ⟨(backLinked_update_of_notMem hha).mpr hb.1.2, ?_, trivial⟩
      rw [hb.2.1, List.getLastD_cons]
  | cons y b =>
    simp only [List.headD_cons, List.getLastD_cons] at hb ⊢
    have hya : y ∉ a ++ [p] := by
      have hsplit : a ++ p :: y :: b = (a ++ [p]) ++ y :: b := by simp
      rw [hsplit] at hnd'
      have hcons := List.nodup_cons.mp (List.nodup_middle.mp hnd')
      exact fun hm => hcons.1 (List.mem_append_left _ hm)
    have hyb : y ∉ b := by
      have hsplit : a ++ p :: y :: b = (a ++ [p]) ++ y :: b := by simp
      rw [hsplit] at hnd'
      have hcons := List.nodup_cons.mp (List.nodup_middle.mp hnd')
      exact fun hm => hcons.1 (List.mem_append_right _ hm)
    simp only [List.mem_append, List.mem_singleton, not_or] at hya
    rw [backLinked_append_cons, backLinked_cons, Function.update_self,
      Function.update_of_ne (Ne.symm hya.2)]
    exact ⟨(backLinked_update_of_notMem hya.1).mpr hb.1, hb.2.1, rfl,
      (backLinked_update_of_notMem hyb).mpr hb.2.2.2.2⟩

theorem Holds.link (w : r.Holds h l) {a b l' : List α} {p x : α} (hs : h :: l = a ++ p :: b)
    (hx : x ∉ h :: l) (hs' : h :: l' = a ++ p :: x :: b) : (r.link p x).Holds h l' := by
  have hnext := w.next_eq hs
  have hlast := getLastD_tail hs
  have hlast' := getLastD_tail (a := a) (p := p) (b := x :: b) hs'
  have hnd := w.nodup
  have hl := w.linked
  have hb := w.back
  rw [hs, linked_append_cons] at hl
  rw [hs, backLinked_append_cons] at hb
  rw [hs] at hnd hx
  obtain ⟨hpa, hpb⟩ : p ∉ a ∧ p ∉ b := by
    have hcons := List.nodup_cons.mp (List.nodup_middle.mp hnd)
    simpa using hcons.1
  simp only [List.mem_append, List.mem_cons, not_or] at hx
  obtain ⟨hxa, hxp, hxb⟩ := hx
  have hnd' : (a ++ p :: x :: b).Nodup := by
    have hsplit : a ++ p :: x :: b = (a ++ [p]) ++ x :: b := by simp
    rw [hsplit, List.nodup_middle, List.nodup_cons]
    refine ⟨by simp [hxa, hxp, hxb], ?_⟩
    simpa using hnd
  have hlink : Linked (r.link p x).next h (a ++ p :: x :: b) h := by
    simp only [Links.link]
    rw [linked_append_cons, linked_cons, Function.update_self, Function.update_of_ne hxp,
      Function.update_self]
    exact ⟨(linked_update_of_notMem hpa).mpr ((linked_update_of_notMem hxa).mpr hl.1), rfl,
      (linked_update_of_notMem hpb).mpr ((linked_update_of_notMem hxb).mpr hl.2)⟩
  refine ⟨hs' ▸ hlink, ?_, hs' ▸ hnd'⟩
  rw [hs', hlast']
  simp only [Links.link, hnext]
  rw [hlast] at hb
  cases b with
  | nil =>
    simp only [List.headD_nil, List.getLastD_nil, List.getLastD_cons] at hb ⊢
    cases a with
    | nil =>
      have hp : h = p := (List.cons.inj hs').1
      subst hp
      rw [List.nil_append, backLinked_cons, backLinked_cons, Function.update_self,
        Function.update_of_ne hxp, Function.update_self]
      exact ⟨rfl, rfl, trivial⟩
    | cons y a =>
      have hy : h = y := (List.cons.inj hs').1
      subst hy
      have hha : h ∉ a := by
        have hcons := List.nodup_cons.mp hnd
        exact fun hm => hcons.1 (List.mem_append_left _ hm)
      have hhp : p ≠ h := by
        rintro rfl
        exact hpa List.mem_cons_self
      have hxh : x ≠ h := by
        rintro rfl
        exact hxa List.mem_cons_self
      have hxa' : x ∉ a := fun hm => hxa (List.mem_cons_of_mem _ hm)
      rw [List.cons_append, backLinked_cons, Function.update_self]
      refine ⟨rfl, ?_⟩
      rw [backLinked_append_cons, backLinked_cons, Function.update_of_ne hhp,
        Function.update_of_ne (Ne.symm hxp), Function.update_of_ne hxh, Function.update_self]
      refine ⟨(backLinked_update_of_notMem hha).mpr ((backLinked_update_of_notMem hxa').mpr
        hb.1.2), ?_, rfl, trivial⟩
      rw [hb.2.1, List.getLastD_cons]
  | cons y b =>
    simp only [List.headD_cons, List.getLastD_cons] at hb ⊢
    have hsplit : a ++ p :: y :: b = (a ++ [p]) ++ y :: b := by simp
    rw [hsplit] at hnd
    have hcons := List.nodup_cons.mp (List.nodup_middle.mp hnd)
    obtain ⟨hya, hyp, hyb⟩ : y ∉ a ∧ y ≠ p ∧ y ∉ b := by simpa [and_assoc] using hcons.1
    have hxy : x ≠ y := by
      rintro rfl
      exact hxb List.mem_cons_self
    have hxb' : x ∉ b := fun hm => hxb (List.mem_cons_of_mem _ hm)
    rw [backLinked_append_cons, backLinked_cons, backLinked_cons, Function.update_self,
      Function.update_of_ne (Ne.symm hyp), Function.update_of_ne (Ne.symm hxp),
      Function.update_of_ne hxy, Function.update_self]
    exact ⟨(backLinked_update_of_notMem hya).mpr ((backLinked_update_of_notMem hxa).mpr hb.1),
      hb.2.1, rfl, rfl, (backLinked_update_of_notMem hyb).mpr
        ((backLinked_update_of_notMem hxb').mpr hb.2.2.2)⟩

end Links
end PointerList
