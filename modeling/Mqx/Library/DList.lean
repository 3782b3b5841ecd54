import Mqx.Library.Linked

/-!
# Doubly linked lists behind a head pointer

The list ends in `null` on both sides and is entered through `head`. The edits
are written as pointer programs write them: separate branches for the head of
the list and for a missing right neighbour. Each edit comes with the list it
produces and with a frame lemma: only nodes of the list are touched.
-/

namespace PointerList

/-- A head pointer with the successor and predecessor maps of a heap. -/
structure DList (α : Type*) where
  head : α
  next : α → α
  prev : α → α

namespace DList

variable {α : Type*}

/-- The maps thread exactly this duplicate-free list of nodes. -/
structure Represents (null : α) (d : DList α) (l : List α) : Prop where
  linked : Linked d.next d.head l null
  back : BackLinked d.prev null l
  nodup : l.Nodup
  null_notMem : null ∉ l

variable {null : α} {d : DList α}

theorem Represents.next_eq {l r : List α} {b : α} (h : d.Represents null (l ++ b :: r)) :
    d.next b = r.headD null := by
  have hr := (linked_append_cons.mp h.linked).2
  cases r with
  | nil => simpa using hr
  | cons x r => simpa using hr.1

theorem Represents.prev_eq {l r : List α} {b : α} (h : d.Represents null (l ++ b :: r)) :
    d.prev b = l.getLastD null :=
  (backLinked_append_cons.mp h.back).2.1

theorem Represents.head_eq {l : List α} (h : d.Represents null l) : d.head = l.headD null := by
  have hl := h.linked
  cases l with
  | nil => simpa using hl
  | cons x l => simpa using hl.1

theorem Represents.prev_ne {l : List α} {b : α} (h : d.Represents null l) (hb : b ∈ l)
    (hh : b ≠ d.head) : d.prev b ∈ l ∧ d.prev b ≠ null := by
  obtain ⟨l, r, rfl⟩ := List.append_of_mem hb
  have hp := h.prev_eq
  rcases List.eq_nil_or_concat l with rfl | ⟨l, p, rfl⟩
  · exact absurd h.head_eq.symm hh
  · simp only [List.concat_eq_append, List.getLastD_concat] at hp
    rw [hp]
    refine ⟨by simp, ?_⟩
    rintro rfl
    exact h.null_notMem (by simp)

theorem Represents.next_mem {l : List α} {b : α} (h : d.Represents null l) (hb : b ∈ l)
    (hn : d.next b ≠ null) : d.next b ∈ l :=
  (h.linked.next_mem hb).resolve_right hn

theorem Represents.congr {d' : DList α} {l : List α} (h : d.Represents null l)
    (hh : d'.head = d.head) (hn : ∀ x ∈ l, d'.next x = d.next x)
    (hp : ∀ x ∈ l, d'.prev x = d.prev x) : d'.Represents null l :=
  ⟨by rw [hh]; exact h.linked.congr hn, h.back.congr hp, h.nodup, h.null_notMem⟩

/-- The maps determine the list. -/
theorem Represents.unique {l l' : List α} (h : d.Represents null l) (h' : d.Represents null l') :
    l = l' :=
  h.linked.unique h'.linked h.null_notMem h'.null_notMem

/-- Splitting at a node, in the form the edits below need it: the links into and
out of the node and the two rests, none of which contains the node again. -/
theorem Represents.at {l r : List α} {b : α} (h : d.Represents null (l ++ b :: r)) :
    Linked d.next d.head l b ∧ Linked d.next (d.next b) r null ∧ BackLinked d.prev null l ∧
      BackLinked d.prev b r ∧ b ∉ l ∧ b ∉ r ∧ (∀ x ∈ l, x ∉ r) ∧ l.Nodup ∧ r.Nodup ∧
      b ≠ null ∧ null ∉ l ∧ null ∉ r := by
  obtain ⟨hl, hr⟩ := linked_append_cons.mp h.linked
  obtain ⟨bl, -, br⟩ := backLinked_append_cons.mp h.back
  have hd := h.nodup
  have h0 := h.null_notMem
  simp only [List.nodup_append, List.nodup_cons, List.mem_cons, List.mem_append, not_or] at hd h0
  refine ⟨hl, hr, bl, br, ?_, hd.2.1.1, ?_, hd.1, hd.2.1.2, Ne.symm h0.2.1, h0.1, h0.2.2⟩
  · intro hb
    exact hd.2.2 b hb b (Or.inl rfl) rfl
  · intro x hx hxr
    exact hd.2.2 x hx x (Or.inr hxr) rfl

theorem Represents.next_ne {l r : List α} {b : α} (h : d.Represents null (l ++ b :: r)) :
    d.next b ≠ b := by
  have hbr := (h.at).2.2.2.2.2.1
  rw [h.next_eq]
  cases r with
  | nil => exact Ne.symm (h.at).2.2.2.2.2.2.2.2.2.1
  | cons n r => exact fun hc => hbr (hc ▸ List.mem_cons_self)

variable [DecidableEq α] (null)

/-- Take `b` out of the list. -/
def unlink (d : DList α) (b : α) : DList α :=
  if b = d.head then
    let d := { d with head := d.next b }
    if d.head ≠ null then { d with prev := Function.update d.prev d.head null } else d
  else
    let d := { d with next := Function.update d.next (d.prev b) (d.next b) }
    if d.next b ≠ null then { d with prev := Function.update d.prev (d.next b) (d.prev b) } else d

/-- Put the new node `n` right behind `b`. -/
def insertAfter (d : DList α) (b n : α) : DList α :=
  let d := { d with next := Function.update (Function.update d.next n (d.next b)) b n
                    prev := Function.update d.prev n b }
  if d.next n ≠ null then { d with prev := Function.update d.prev (d.next n) n } else d

/-- Let `b` take the place of `n`. -/
def replace (d : DList α) (n b : α) : DList α :=
  let d := { d with next := Function.update d.next b (d.next n) }
  let d := if d.next b ≠ null then
    { d with prev := Function.update d.prev (d.next b) b } else d
  if n = d.head then
    { d with head := b, prev := Function.update d.prev b null }
  else
    let d := { d with prev := Function.update d.prev b (d.prev n) }
    if d.prev b ≠ null then { d with next := Function.update d.next (d.prev b) b } else d

/-- Put `b` in front of the list. -/
def insertHead (d : DList α) (b : α) : DList α :=
  let n := d.head
  let d := { d with head := b }
  let d := if n ≠ null then { d with prev := Function.update d.prev n b } else d
  { d with prev := Function.update d.prev b null, next := Function.update d.next b n }

/-- Put `b` behind the last node `n`. -/
def insertEnd (d : DList α) (n b : α) : DList α :=
  { d with next := Function.update (Function.update d.next b null) n b
           prev := Function.update d.prev b n }

/-- Put `b` right before `n`, which is not the head. -/
def insertBefore (d : DList α) (n b : α) : DList α :=
  let d := { d with prev := Function.update (Function.update d.prev b (d.prev n)) n b
                    next := Function.update d.next b n }
  { d with next := Function.update d.next (d.prev b) b }

/-- Take `b` out of the list by its own two links. -/
def cut (d : DList α) (b : α) : DList α :=
  let d := if d.next b ≠ null then
    { d with prev := Function.update d.prev (d.next b) (d.prev b) } else d
  if d.prev b ≠ null then { d with next := Function.update d.next (d.prev b) (d.next b) }
  else { d with head := d.next b }

/-- Put `b` between two neighbours, of which either may be missing. -/
def insertBetween (d : DList α) (p b n : α) : DList α :=
  let d := { d with next := Function.update d.next b n, prev := Function.update d.prev b p }
  let d := if p ≠ null then { d with next := Function.update d.next p b } else { d with head := b }
  if n ≠ null then { d with prev := Function.update d.prev n b } else d

variable {null}

theorem Represents.unlink {l r : List α} {b : α} (h : d.Represents null (l ++ b :: r)) :
    (d.unlink null b).Represents null (l ++ r) := by
  have hnext := h.next_eq
  have hprev := h.prev_eq
  have hhead := h.head_eq
  obtain ⟨hl, hr, bl, br, hbl, hbr, hlr, dl, dr, hb0, h0l, h0r⟩ := h.at
  have hd : (l ++ r).Nodup := List.nodup_append'.mpr ⟨dl, dr, hlr⟩
  have h0 : null ∉ l ++ r := by simp [h0l, h0r]
  rcases List.eq_nil_or_concat l with rfl | ⟨l, p, rfl⟩
  · cases r with
    | nil => exact ⟨by simp_all [DList.unlink], by simp, hd, h0⟩
    | cons n r =>
      have hn : n ≠ null := by rintro rfl; simp at h0r
      have hnr : n ∉ r := (List.nodup_cons.mp dr).1
      have he : d.unlink null b = ⟨n, d.next, Function.update d.prev n null⟩ := by
        simp_all [DList.unlink]
      rw [he]
      exact ⟨⟨rfl, hr.2⟩, ⟨by simp, (backLinked_update_of_notMem hnr).mpr br.2⟩, hd, h0⟩
  · simp only [List.concat_eq_append, List.getLastD_concat] at *
    have hbh : b ≠ d.head := by
      rw [hhead]
      cases l <;> simp_all
    obtain ⟨hlp, hpb⟩ := linked_append_cons.mp hl
    have hpl : p ∉ l := fun hm => (List.nodup_append'.mp dl).2.2 hm (by simp)
    have hpr : p ∉ r := hlr p (by simp)
    have hpb' : b ≠ p := by rintro rfl; simp at hbl
    cases r with
    | nil =>
      have he : d.unlink null b = ⟨d.head, Function.update d.next p null, d.prev⟩ := by
        simp_all [DList.unlink, Function.update_of_ne]
      rw [he]
      refine ⟨?_, by simpa using bl, hd, h0⟩
      simp only [List.append_nil]
      rw [linked_append_cons]
      exact ⟨(linked_update_of_notMem hpl).mpr hlp, by simp⟩
    | cons n r =>
      have hn : n ≠ null := by rintro rfl; simp at h0r
      have hnl : n ∉ l ++ [p] := fun hm => hlr n hm (by simp)
      have hnr : n ∉ r := (List.nodup_cons.mp dr).1
      have he : d.unlink null b =
          ⟨d.head, Function.update d.next p n, Function.update d.prev n p⟩ := by
        simp_all [DList.unlink, Function.update_of_ne]
      rw [he]
      refine ⟨?_, ?_, hd, h0⟩
      · simp only [List.append_assoc, List.singleton_append]
        rw [linked_append_cons]
        refine ⟨(linked_update_of_notMem hpl).mpr hlp, by simp, ?_⟩
        have hpn : n ≠ p := by rintro rfl; simp at hnl
        rw [Function.update_of_ne hpn]
        exact (linked_update_of_notMem fun hm => hpr (by simp [hm])).mpr hr.2
      · rw [backLinked_append_cons]
        exact ⟨(backLinked_update_of_notMem hnl).mpr bl, by simp,
          (backLinked_update_of_notMem hnr).mpr br.2⟩

theorem Represents.insertAfter {l r : List α} {b n : α} (h : d.Represents null (l ++ b :: r))
    (hn : n ∉ l ++ b :: r) (hn0 : n ≠ null) :
    (d.insertAfter null b n).Represents null (l ++ b :: n :: r) := by
  have hprev := h.prev_eq
  obtain ⟨hl, hr, bl, br, hbl, hbr, hlr, dl, dr, hb0, h0l, h0r⟩ := h.at
  simp only [List.mem_append, List.mem_cons, not_or] at hn
  obtain ⟨hnl, hnb, hnr⟩ := hn
  have hd : (l ++ b :: n :: r).Nodup := by
    rw [List.nodup_append']
    refine ⟨dl, by simp [hbr, hnr, dr, Ne.symm hnb], ?_⟩
    intro x hx hm
    rcases List.mem_cons.mp hm with rfl | hm
    · exact hbl hx
    · rcases List.mem_cons.mp hm with rfl | hm
      · exact hnl hx
      · exact hlr x hx hm
  have h0 : null ∉ l ++ b :: n :: r := by simp [h0l, h0r, Ne.symm hb0, Ne.symm hn0]
  -- the successor map is the same whether or not there is a right neighbour
  have hlink : Linked (Function.update (Function.update d.next n (d.next b)) b n) d.head
      (l ++ b :: n :: r) null := by
    rw [linked_append_cons]
    refine ⟨?_, by simp, ?_⟩
    · exact (linked_update_of_notMem hbl).mpr ((linked_update_of_notMem hnl).mpr hl)
    · rw [Function.update_of_ne hnb, Function.update_self]
      exact (linked_update_of_notMem hbr).mpr ((linked_update_of_notMem hnr).mpr hr)
  have hback : BackLinked (Function.update d.prev n b) null (l ++ [b, n]) := by
    rw [backLinked_append_cons]
    refine ⟨(backLinked_update_of_notMem hnl).mpr bl, ?_, by simp⟩
    rw [Function.update_of_ne (Ne.symm hnb), hprev]
  cases r with
  | nil =>
    have hnext : d.next b = null := hr
    have he : d.insertAfter null b n = ⟨d.head, Function.update (Function.update d.next n (d.next b)) b n,
        Function.update d.prev n b⟩ := by
      simp [DList.insertAfter, Function.update_of_ne hnb, hnext]
    rw [he]
    exact ⟨hlink, hback, hd, h0⟩
  | cons m r =>
    have hm0 : m ≠ null := by rintro rfl; simp at h0r
    have hnext : d.next b = m := hr.1
    have hmn : m ≠ n := by rintro rfl; simp at hnr
    have he : d.insertAfter null b n = ⟨d.head, Function.update (Function.update d.next n (d.next b)) b n,
        Function.update (Function.update d.prev n b) m n⟩ := by
      simp [DList.insertAfter, Function.update_of_ne hnb, hnext, hm0]
    rw [he]
    refine ⟨hlink, ?_, hd, h0⟩
    have hml : m ∉ l ++ [b, n] := by
      have hml := hlr m
      simp_all
      grind
    have hmr : m ∉ r := (List.nodup_cons.mp dr).1
    have hsplit : l ++ b :: n :: m :: r = (l ++ [b, n]) ++ m :: r := by simp
    rw [hsplit, backLinked_append_cons]
    refine ⟨(backLinked_update_of_notMem hml).mpr hback, by simp [List.getLastD_eq_getLast?], ?_⟩
    have hnr' : n ∉ r := fun hx => hnr (by simp [hx])
    exact (backLinked_update_of_notMem hmr).mpr ((backLinked_update_of_notMem hnr').mpr br.2)

theorem Represents.replace {l r : List α} {n b : α} (h : d.Represents null (l ++ n :: r))
    (hb : b ∉ l ++ n :: r) (hb0 : b ≠ null) :
    (d.replace null n b).Represents null (l ++ b :: r) := by
  have hnext := h.next_eq
  have hprev := h.prev_eq
  have hhead := h.head_eq
  obtain ⟨hl, hr, bl, br, hnl, hnr, hlr, dl, dr, hn0, h0l, h0r⟩ := h.at
  simp only [List.mem_append, List.mem_cons, not_or] at hb
  obtain ⟨hbl, hbn, hbr⟩ := hb
  have hd : (l ++ b :: r).Nodup := by
    rw [List.nodup_append']
    refine ⟨dl, by simp [hbr, dr], ?_⟩
    intro x hx hm
    rcases List.mem_cons.mp hm with rfl | hm
    · exact hbl hx
    · exact hlr x hx hm
  have h0 : null ∉ l ++ b :: r := by simp [h0l, h0r, Ne.symm hb0]
  -- the right side is the same in both branches of the left side
  obtain ⟨prev, hp, hpr, hpn, hpl⟩ : ∃ prev : α → α,
      prev = (if d.next n ≠ null then Function.update d.prev (d.next n) b else d.prev) ∧
      BackLinked prev b r ∧ prev n = d.prev n ∧ BackLinked prev null l := by
    refine ⟨_, rfl, ?_⟩
    cases r with
    | nil =>
      have hn : d.next n = null := hr
      simp [hn, bl]
    | cons m r =>
      have hm0 : m ≠ null := by rintro rfl; simp at h0r
      have hm : d.next n = m := hr.1
      have hmn : m ≠ n := by rintro rfl; simp at hnr
      have hmr : m ∉ r := (List.nodup_cons.mp dr).1
      have hml : m ∉ l := fun hx => hlr m hx (by simp)
      simp only [hm, ne_eq, hm0, not_false_eq_true, if_true]
      exact ⟨⟨by simp, (backLinked_update_of_notMem hmr).mpr br.2⟩,
        Function.update_of_ne hmn.symm _ _, (backLinked_update_of_notMem hml).mpr bl⟩
  have hright : Linked (Function.update d.next b (d.next n)) (d.next n) r null :=
    (linked_update_of_notMem hbr).mpr hr
  rcases List.eq_nil_or_concat l with rfl | ⟨l, p, rfl⟩
  · have he : d.replace null n b =
        ⟨b, Function.update d.next b (d.next n), Function.update prev b null⟩ := by
      have hnh : d.head = n := by simp [hhead]
      by_cases h0 : d.next n = null <;> simp [DList.replace, hnh, hp, h0]
    rw [he]
    refine ⟨⟨rfl, by simpa using hright⟩, ⟨by simp, ?_⟩, hd, h0⟩
    exact (backLinked_update_of_notMem hbr).mpr hpr
  · simp only [List.concat_eq_append, List.getLastD_concat] at *
    have hnh : n ≠ d.head := by
      rw [hhead]
      cases l <;> simp_all
    obtain ⟨hlp, hpn'⟩ := linked_append_cons.mp hl
    have hp0 : p ≠ null := by rintro rfl; simp at h0l
    have hpl' : p ∉ l := fun hm => (List.nodup_append'.mp dl).2.2 hm (by simp)
    have hbl' : b ∉ l := fun hm => hbl (by simp [hm])
    have hpb : b ≠ p := by rintro rfl; simp at hbl
    have hpr' : p ∉ r := hlr p (by simp)
    have he : d.replace null n b =
        ⟨d.head, Function.update (Function.update d.next b (d.next n)) p b,
          Function.update prev b p⟩ := by
      rw [hprev] at hpn
      by_cases h0 : d.next n = null
      · simp only [ne_eq, h0, not_true, if_false] at hp
        simp [DList.replace, hnh, h0, ← hp, hpn, hp0]
      · simp only [ne_eq, h0, not_false_eq_true, if_true] at hp
        simp [DList.replace, hnh, h0, ← hp, hpn, hp0]
    rw [he]
    refine ⟨?_, ?_, hd, h0⟩
    · rw [linked_append_cons, linked_append_cons]
      refine ⟨⟨?_, by simp⟩, ?_⟩
      · exact (linked_update_of_notMem hpl').mpr ((linked_update_of_notMem hbl').mpr hlp)
      · dsimp only
        rw [Function.update_of_ne hpb, Function.update_self]
        exact (linked_update_of_notMem hpr').mpr hright
    · rw [backLinked_append_cons]
      exact ⟨(backLinked_update_of_notMem hbl).mpr hpl, by simp,
        (backLinked_update_of_notMem hbr).mpr hpr⟩

theorem Represents.insertHead {l : List α} {b : α} (h : d.Represents null l)
    (hb : b ∉ l) (hb0 : b ≠ null) : (d.insertHead null b).Represents null (b :: l) := by
  have hd : (b :: l).Nodup := List.nodup_cons.mpr ⟨hb, h.nodup⟩
  have h0 : null ∉ b :: l := by simp [Ne.symm hb0, h.null_notMem]
  have hlink : Linked (Function.update d.next b d.head) b (b :: l) null :=
    ⟨rfl, by simpa using (linked_update_of_notMem hb).mpr h.linked⟩
  cases l with
  | nil =>
    have hh : d.head = null := h.linked
    have he : d.insertHead null b =
        ⟨b, Function.update d.next b d.head, Function.update d.prev b null⟩ := by
      simp [DList.insertHead, hh]
    rw [he]
    exact ⟨hlink, by simp, hd, h0⟩
  | cons n l =>
    have hn0 : n ≠ null := by rintro rfl; exact h.null_notMem (by simp)
    have hh : d.head = n := h.linked.1
    have hnb : n ≠ b := by rintro rfl; simp at hb
    have hnl : n ∉ l := (List.nodup_cons.mp h.nodup).1
    have hbl : b ∉ l := fun hm => hb (by simp [hm])
    have he : d.insertHead null b = ⟨b, Function.update d.next b d.head,
        Function.update (Function.update d.prev n b) b null⟩ := by
      simp [DList.insertHead, hh, hn0]
    rw [he]
    refine ⟨hlink, ⟨by simp, by simp [hnb], ?_⟩, hd, h0⟩
    exact (backLinked_update_of_notMem hbl).mpr
      ((backLinked_update_of_notMem hnl).mpr h.back.2)

theorem Represents.insertEnd {l : List α} {n b : α} (h : d.Represents null (l ++ [n]))
    (hb : b ∉ l ++ [n]) (hb0 : b ≠ null) :
    (d.insertEnd null n b).Represents null (l ++ [n, b]) := by
  have hprev := h.prev_eq
  obtain ⟨hl, -, bl, -, hnl, -, -, dl, -, hn0, h0l, -⟩ := h.at
  simp only [List.mem_append, List.mem_singleton, not_or] at hb
  obtain ⟨hbl, hbn⟩ := hb
  refine ⟨?_, ?_, ?_, by simp [h0l, Ne.symm hn0, Ne.symm hb0]⟩
  · rw [linked_append_cons]
    refine ⟨(linked_update_of_notMem hnl).mpr ((linked_update_of_notMem hbl).mpr hl), ?_⟩
    simp [DList.insertEnd, Function.update_of_ne hbn]
  · rw [backLinked_append_cons]
    refine ⟨(backLinked_update_of_notMem hbl).mpr bl, ?_, by simp [DList.insertEnd]⟩
    simp only [DList.insertEnd, Function.update_of_ne (Ne.symm hbn), hprev]
  · rw [List.nodup_append']
    refine ⟨dl, by simp [Ne.symm hbn], ?_⟩
    intro x hx hm
    simp only [List.mem_cons, List.not_mem_nil, or_false] at hm
    rcases hm with rfl | rfl
    · exact hnl hx
    · exact hbl hx

theorem Represents.insertBefore {l r : List α} {n b : α} (h : d.Represents null (l ++ n :: r))
    (hl0 : l ≠ []) (hb : b ∉ l ++ n :: r) (hb0 : b ≠ null) :
    (d.insertBefore n b).Represents null (l ++ b :: n :: r) := by
  have hprev := h.prev_eq
  obtain ⟨hl, hr, bl, br, hnl, hnr, hlr, dl, dr, hn0, h0l, h0r⟩ := h.at
  simp only [List.mem_append, List.mem_cons, not_or] at hb
  obtain ⟨hbl, hbn, hbr⟩ := hb
  rcases List.eq_nil_or_concat l with rfl | ⟨l, p, rfl⟩
  · exact absurd rfl hl0
  simp only [List.concat_eq_append, List.getLastD_concat] at *
  obtain ⟨hlp, -⟩ := linked_append_cons.mp hl
  have hpl : p ∉ l := fun hm => (List.nodup_append'.mp dl).2.2 hm (by simp)
  have hbl' : b ∉ l := fun hm => hbl (by simp [hm])
  have hbp : b ≠ p := by rintro rfl; simp at hbl
  have hnp : n ≠ p := by rintro rfl; simp at hnl
  have hpr : p ∉ r := hlr p (by simp)
  have he : d.insertBefore n b = ⟨d.head, Function.update (Function.update d.next b n) p b,
      Function.update (Function.update d.prev b p) n b⟩ := by
    simp [DList.insertBefore, hprev, Function.update_of_ne hbn]
  rw [he]
  have h0 : null ∉ l ++ [p] ++ b :: n :: r := by
    rw [List.mem_append]
    simp [h0r, Ne.symm hn0, Ne.symm hb0, h0l]
  refine ⟨?_, ?_, ?_, h0⟩
  · rw [linked_append_cons, linked_append_cons]
    refine ⟨⟨?_, by simp⟩, ?_⟩
    · exact (linked_update_of_notMem hpl).mpr ((linked_update_of_notMem hbl').mpr hlp)
    · refine ⟨by simp [Function.update_of_ne hbp], ?_⟩
      dsimp only
      rw [Function.update_of_ne hnp, Function.update_of_ne (Ne.symm hbn)]
      exact (linked_update_of_notMem hpr).mpr ((linked_update_of_notMem hbr).mpr hr)
  · rw [backLinked_append_cons]
    refine ⟨?_, by simp [Function.update_of_ne hbn], by simp, ?_⟩
    · exact (backLinked_update_of_notMem hnl).mpr ((backLinked_update_of_notMem hbl).mpr bl)
    · exact (backLinked_update_of_notMem hnr).mpr ((backLinked_update_of_notMem hbr).mpr br)
  · rw [List.nodup_append']
    refine ⟨dl, by simp [hbn, hbr, hnr, dr], ?_⟩
    intro x hx hm
    rcases List.mem_cons.mp hm with rfl | hm
    · exact hbl hx
    · rcases List.mem_cons.mp hm with rfl | hm
      · exact hnl hx
      · exact hlr x hx hm

theorem Represents.cut {l r : List α} {b : α} (h : d.Represents null (l ++ b :: r)) :
    (d.cut null b).Represents null (l ++ r) := by
  have hunlink := h.unlink
  suffices heq : d.cut null b = d.unlink null b by rwa [heq]
  have hb := (h.at).2.2.2.2.2.2.2.2.2.1
  have hnb := h.next_ne
  by_cases hh : b = d.head
  · have hprev : d.prev b = null := by
      rw [h.prev_eq]
      cases l with
      | nil => rfl
      | cons a l =>
        have hba := h.head_eq.symm.trans hh.symm
        exact absurd (hba ▸ List.mem_cons_self) (h.at).2.2.2.2.1
    by_cases hn : d.next b = null <;>
      simp [DList.cut, DList.unlink, ← hh, hn, hprev, Function.update_of_ne hnb.symm]
  · have hp := (h.prev_ne (by simp) hh).2
    have hbp : b ≠ d.prev b := by
      intro hc
      rw [h.prev_eq] at hc
      rcases List.eq_nil_or_concat l with rfl | ⟨l, p, rfl⟩
      · exact hb hc
      · rw [List.concat_eq_append, List.getLastD_concat] at hc
        exact (h.at).2.2.2.2.1 (by simp [hc])
    by_cases hn : d.next b = null <;>
      simp [DList.cut, DList.unlink, hh, hn, hp, Function.update_of_ne hbp,
        Function.update_of_ne hnb.symm]

theorem Represents.insertBetween {l r : List α} {b : α} (h : d.Represents null (l ++ r))
    (hb : b ∉ l ++ r) (hb0 : b ≠ null) :
    (d.insertBetween null (l.getLastD null) b (r.headD null)).Represents null (l ++ b :: r) := by
  rcases List.eq_nil_or_concat l with rfl | ⟨l, p, rfl⟩
  · have hins := h.insertHead hb hb0
    suffices heq : d.insertBetween null null b (r.headD null) = d.insertHead null b by
      rw [List.getLastD_nil, heq]
      exact hins
    have hhead : d.head = r.headD null := h.head_eq
    rw [← hhead]
    by_cases hn : d.head = null
    · simp [DList.insertBetween, DList.insertHead, hn]
    · have hne : d.head ≠ b := by
        intro hc
        cases r with
        | nil => exact hn hhead
        | cons n r => exact hb (by simp [← hc, hhead])
      simp [DList.insertBetween, DList.insertHead, hn, Function.update_comm hne]
  · rw [List.concat_eq_append, List.append_assoc, List.singleton_append] at h hb ⊢
    have hins := h.insertAfter hb hb0
    have hp0 : p ≠ null := (h.at).2.2.2.2.2.2.2.2.2.1
    have hbp : b ≠ p := fun hc => hb (by simp [hc])
    suffices heq : d.insertBetween null p b (r.headD null) = d.insertAfter null p b by
      rw [List.getLastD_concat, heq]
      simpa using hins
    rw [← h.next_eq]
    simp [DList.insertBetween, DList.insertAfter, hp0, Function.update_of_ne hbp]

/-! ## What the edits leave alone -/

theorem Represents.cut_same {l : List α} {b x : α} (h : d.Represents null l) (hb : b ∈ l)
    (hx : x ∉ l) :
    (d.cut null b).next x = d.next x ∧ (d.cut null b).prev x = d.prev x := by
  have hn : x = d.next b → d.next b = null := fun hc => by
    by_contra h0
    exact hx (hc ▸ h.next_mem hb h0)
  have hp : x = d.prev b → d.prev b = null := fun hc => by
    by_contra h0
    have hh : b ≠ d.head := by
      intro hh
      obtain ⟨l, r, rfl⟩ := List.append_of_mem hb
      rw [h.prev_eq] at h0
      cases l with
      | nil => exact h0 rfl
      | cons a l =>
        have hba := hh.trans h.head_eq
        exact (h.at).2.2.2.2.1 (hba ▸ List.mem_cons_self)
    exact hx (hc ▸ (h.prev_ne hb hh).1)
  have hnext : d.next b ≠ null → x ≠ d.next b := fun h0 hc => h0 (hn hc)
  have hprev : d.prev b ≠ null → x ≠ d.prev b := fun h0 hc => h0 (hp hc)
  have hnb : b ≠ d.next b := by
    obtain ⟨l, r, rfl⟩ := List.append_of_mem hb
    exact h.next_ne.symm
  unfold DList.cut
  by_cases h1 : d.next b = null <;> by_cases h2 : d.prev b = null
  · simp [h1, h2]
  · simp [h1, h2, hprev h2]
  · simp [h1, h2, hnext h1, Function.update_of_ne hnb]
  · simp [h1, h2, hnext h1, hprev h2, Function.update_of_ne hnb]

theorem insertBetween_same {p b n x : α} (hb : x ≠ b) (hp : x ≠ p) (hn : x ≠ n) :
    (d.insertBetween null p b n).next x = d.next x ∧
      (d.insertBetween null p b n).prev x = d.prev x := by
  unfold DList.insertBetween
  by_cases h1 : p = null <;> by_cases h2 : n = null <;>
    simp [h1, h2, Function.update_of_ne hb, Function.update_of_ne hp, Function.update_of_ne hn]

theorem Represents.unlink_next {l : List α} {b x : α} (h : d.Represents null l) (hb : b ∈ l)
    (hx : x ∉ l) : (d.unlink null b).next x = d.next x := by
  unfold DList.unlink
  split_ifs with hh
  · dsimp only
    split_ifs <;> rfl
  · have hp := (h.prev_ne hb hh).1
    have hne : x ≠ d.prev b := by rintro rfl; exact hx hp
    dsimp only
    split_ifs <;> exact Function.update_of_ne hne _ _

@[simp] theorem insertAfter_head {b n : α} : (d.insertAfter null b n).head = d.head := by
  unfold DList.insertAfter
  dsimp only
  split_ifs <;> rfl

theorem insertAfter_next {b n x : α} (hb : x ≠ b) (hn : x ≠ n) :
    (d.insertAfter null b n).next x = d.next x := by
  unfold DList.insertAfter
  dsimp only
  split_ifs <;> simp [Function.update_of_ne hb, Function.update_of_ne hn]

theorem Represents.replace_next {l : List α} {n b x : α} (h : d.Represents null l) (hn : n ∈ l)
    (hb : b ∉ l) (hx : x ∉ l) (hxb : x ≠ b) : (d.replace null n b).next x = d.next x := by
  have hnb : n ≠ b := by rintro rfl; exact hb hn
  by_cases hh : n = d.head
  · by_cases h0 : d.next n = null <;> simp [DList.replace, ← hh, h0, hxb]
  · have hp := h.prev_ne hn hh
    have hxp : x ≠ d.prev n := by rintro rfl; exact hx hp.1
    have hnn : n ≠ d.next n := by
      obtain ⟨l, r, rfl⟩ := List.append_of_mem hn
      intro he
      have hnr := (h.at).2.2.2.2.2.1
      rw [h.next_eq] at he
      cases r with
      | nil => exact (h.at).2.2.2.2.2.2.2.2.2.1 he
      | cons m r => simp [he] at hnr
    by_cases h0 : d.next n = null
    · simp [DList.replace, hh, h0, hp.2, hxp, hxb]
    · simp [DList.replace, hh, h0, hp.2, hxp, hxb, Function.update_of_ne hnn]

theorem insertHead_next {b x : α} (hx : x ≠ b) : (d.insertHead null b).next x = d.next x := by
  by_cases h0 : d.head = null <;> simp [DList.insertHead, h0, hx]

theorem insertEnd_next {n b x : α} (hn : x ≠ n) (hb : x ≠ b) :
    (d.insertEnd null n b).next x = d.next x := by
  simp [DList.insertEnd, Function.update_of_ne hn, Function.update_of_ne hb]

theorem insertBefore_next {n b x : α} (hn : x ≠ d.prev n) (hb : x ≠ b) (hnb : b ≠ n) :
    (d.insertBefore n b).next x = d.next x := by
  simp [DList.insertBefore, hn, hb, hnb]

end DList
end PointerList
