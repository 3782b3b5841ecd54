import Mathlib.Tactic.Common
import Mathlib.Data.List.Nodup
import Mqx.Library.DeltaQueue
import Mqx.Rtcs.Ticker

/-!
# The lists of timers

The queue and the lists of expired timers are doubly linked lists that share no timer, and
the deltas of the queue add up to the deadlines. One lemma for each operation on the lists.
-/

namespace Mqx
namespace Rtcs
namespace Ticker

open PointerList DeltaQueue
open Function (update)

/-- A timer of this memory. -/
def IsTimer (s : Ticker) (i : ℕ) : Prop := 0 < i ∧ i ≤ s.timers

/-- Each head pointer leads to its list, which holds the timers that say so. -/
structure Lists (s : Ticker) (lists : ℕ → List ℕ) : Prop where
  rep : ∀ a ≠ 0, (s.view a).Represents 0 (lists a)
  mem : ∀ a ≠ 0, ∀ i, i ∈ lists a ↔ s.IsTimer i ∧ s.curlist i = a

variable {s s' : Ticker} {lists : ℕ → List ℕ} {D : ℕ → ℤ} {a b i q : ℕ} {l r l' : List ℕ} {x e : ℤ}

theorem Lists.ne_zero (h : Lists s lists) (ha : a ≠ 0) (hi : i ∈ lists a) : i ≠ 0 :=
  Nat.ne_of_gt ((h.mem a ha i).mp hi).1.1

theorem Lists.length_le (h : Lists s lists) (ha : a ≠ 0) : (lists a).length ≤ s.timers := by
  have hsub : lists a ⊆ (List.range s.timers).map (· + 1) := by
    intro i hi
    obtain ⟨⟨hpos, hle⟩, -⟩ := (h.mem a ha i).mp hi
    exact List.mem_map.mpr ⟨i - 1, List.mem_range.mpr (by omega), by omega⟩
  have hlen := ((h.rep a ha).nodup.subperm hsub).length_le
  rwa [List.length_map, List.length_range] at hlen

/-- One list has changed, and of the timers outside at most `i`. -/
theorem Lists.edit (h : Lists s lists) (ha : a ≠ 0) (hi : s.IsTimer i)
    (hother : ∀ b ≠ 0, b ≠ a → i ∉ lists b) (hrep : (s'.view a).Represents 0 l')
    (hhead : ∀ b ≠ a, s'.head b = s.head b)
    (hsame : ∀ y ≠ 0, y ∉ lists a → y ≠ i → s'.next y = s.next y ∧ s'.prev y = s.prev y)
    (htimers : s'.timers = s.timers) (hcur : ∀ y ≠ i, s'.curlist y = s.curlist y)
    (hcuri : s'.curlist i = a ∨ s'.curlist i = 0)
    (hmem : ∀ y, y ∈ l' ↔ y ∈ lists a ∧ y ≠ i ∨ y = i ∧ s'.curlist i = a) :
    Lists s' (update lists a l') where
  rep b hb := by
    by_cases hba : b = a
    · subst hba
      rw [Function.update_self]
      exact hrep
    · rw [Function.update_of_ne hba]
      have hout : ∀ y ∈ lists b, y ≠ 0 ∧ y ∉ lists a ∧ y ≠ i := fun y hy =>
        ⟨h.ne_zero hb hy, fun hc => hba (((h.mem b hb y).mp hy).2.symm.trans ((h.mem a ha y).mp hc).2),
          fun hc => hother b hb hba (hc ▸ hy)⟩
      exact (h.rep b hb).congr (hhead b hba)
        (fun y hy => (hsame y (hout y hy).1 (hout y hy).2.1 (hout y hy).2.2).1)
        fun y hy => (hsame y (hout y hy).1 (hout y hy).2.1 (hout y hy).2.2).2
  mem b hb y := by
    have htimer : s'.IsTimer y ↔ s.IsTimer y := by
      unfold IsTimer
      rw [htimers]
    by_cases hba : b = a
    · subst hba
      rw [Function.update_self, hmem, htimer]
      by_cases hyi : y = i
      · simp [hyi, hi]
      · simp [hyi, hcur y hyi, h.mem b hb]
    · rw [Function.update_of_ne hba, h.mem b hb, htimer]
      by_cases hyi : y = i
      · subst hyi
        have hnot : s.curlist y ≠ b := fun hc => hother b hb hba ((h.mem b hb y).mpr ⟨hi, hc⟩)
        rcases hcuri with hc | hc
        · simp [hc, hnot, Ne.symm hba]
        · simp [hc, hnot, Ne.symm hb]
      · rw [hcur y hyi]

/-- A timer in no list goes between two neighbours. -/
theorem Lists.insert (h : Lists s lists) (ha : a ≠ 0) (hi : s.IsTimer i) (hidle : s.curlist i = 0)
    (hl : lists a = l ++ r) (hs' : s'.view a = (s.view a).insertBetween 0 (l.getLastD 0) i (r.headD 0))
    (hhead : ∀ b ≠ a, s'.head b = s.head b) (htimers : s'.timers = s.timers)
    (hcur : s'.curlist = update s.curlist i a) : Lists s' (update lists a (l ++ i :: r)) := by
  have hout : ∀ b ≠ 0, i ∉ lists b := fun b hb hc =>
    hb (((h.mem b hb i).mp hc).2.symm.trans hidle)
  have hrep := h.rep a ha
  rw [hl] at hrep
  refine h.edit ha hi (fun b hb _ => hout b hb) ?_ hhead ?_ htimers ?_ ?_ ?_
  · rw [hs']
    exact hrep.insertBetween (hl ▸ hout a ha) (Nat.ne_of_gt hi.1)
  · intro y hy hya hyi
    have hp : y ≠ l.getLastD 0 := by
      rcases List.eq_nil_or_concat l with rfl | ⟨l, p, rfl⟩
      · exact hy
      · rw [List.concat_eq_append, List.getLastD_concat]
        rintro rfl
        exact hya (hl ▸ by simp)
    have hn : y ≠ r.headD 0 := by
      cases r with
      | nil => exact hy
      | cons n r =>
        rintro rfl
        exact hya (hl ▸ by simp)
    show (s'.view a).next y = (s.view a).next y ∧ (s'.view a).prev y = (s.view a).prev y
    rw [hs']
    exact DList.insertBetween_same hyi hp hn
  · intro y hy
    rw [hcur, Function.update_of_ne hy]
  · exact Or.inl (by rw [hcur, Function.update_self])
  · intro y
    have hnot := hout a ha
    rw [hl] at hnot ⊢
    have hy : y ∈ l ++ r → y ≠ i := fun hy hc => hnot (hc ▸ hy)
    simp only [List.mem_append, List.mem_cons] at hy ⊢
    rw [hcur, Function.update_self]
    tauto

/-- A timer leaves its list. -/
theorem Lists.removeAt (h : Lists s lists) (ha : a ≠ 0) (hl : lists a = l ++ i :: r)
    (hrep : (s'.view a).Represents 0 (l ++ r)) (hhead : ∀ b ≠ a, s'.head b = s.head b)
    (hsame : ∀ y ∉ lists a, s'.next y = s.next y ∧ s'.prev y = s.prev y)
    (htimers : s'.timers = s.timers) (hcur : s'.curlist = update s.curlist i 0) :
    Lists s' (update lists a (l ++ r)) := by
  have hmem : i ∈ lists a := by simp [hl]
  obtain ⟨hi, hcuri⟩ := (h.mem a ha i).mp hmem
  have hnodup := (h.rep a ha).nodup
  rw [hl] at hnodup
  refine h.edit ha hi (fun b hb hba hc => hba ?_) hrep hhead (fun y _ hya _ => hsame y hya) htimers ?_
    (Or.inr (by rw [hcur, Function.update_self])) ?_
  · exact ((h.mem b hb i).mp hc).2.symm.trans hcuri
  · intro y hy
    rw [hcur, Function.update_of_ne hy]
  · intro y
    have hnot : i ∉ l ++ r := (List.nodup_middle.mp hnodup).notMem
    have hy : y ∈ l ++ r → y ≠ i := fun hy hc => hnot (hc ▸ hy)
    rw [hl, hcur, Function.update_self]
    simp only [List.mem_append, List.mem_cons] at hy ⊢
    have ha0 : ¬ (0 = a) := Ne.symm ha
    tauto

/-! ## Leaving a list -/

@[simp] theorem view_withView (d : DList ℕ) : (s.withView a d).view a = d := by
  simp [view, withView]

theorem clearLinks_represents {d : DList ℕ} (h : d.Represents 0 l) (hi : i ∉ l) :
    (((s.withView a d).clearLinks i).view a).Represents 0 l := by
  have hne : ∀ y ∈ l, y ≠ i := fun y hy hc => hi (hc ▸ hy)
  refine h.congr (Function.update_self a _ _) (fun y hy => ?_) fun y hy => ?_
  · exact Function.update_of_ne (hne y hy) _ _
  · exact Function.update_of_ne (hne y hy) _ _

theorem cut_lists {d : DList ℕ} (h : Lists s lists) (ha : a ≠ 0) (hl : lists a = l ++ i :: r)
    (hd : d = (s.view a).cut 0 i) (hs' : s'.curlist = update s.curlist i 0)
    (hview : s'.view = ((s.withView a d).clearLinks i).view) (htimers : s'.timers = s.timers) :
    Lists s' (update lists a (l ++ r)) := by
  have hrep := h.rep a ha
  have hmem : i ∈ lists a := by simp [hl]
  rw [hl] at hrep
  have hcut := hrep.cut
  have hnot : i ∉ l ++ r := (List.nodup_middle.mp hrep.nodup).notMem
  have hhead : ∀ b, s'.head b = ((s.withView a d).clearLinks i).head b :=
    fun b => congrArg (fun v => (v b).head) hview
  have hnext : s'.next = ((s.withView a d).clearLinks i).next :=
    congrArg (fun v => (v a).next) hview
  have hprev : s'.prev = ((s.withView a d).clearLinks i).prev :=
    congrArg (fun v => (v a).prev) hview
  refine h.removeAt ha hl ?_ (fun b hb => ?_) (fun y hy => ?_) htimers hs'
  · rw [hview]
    exact clearLinks_represents (hd ▸ hcut) hnot
  · exact (hhead b).trans (Function.update_of_ne hb _ _)
  · have hyi : y ≠ i := fun hc => hy (hc ▸ hmem)
    have hsame := (h.rep a ha).cut_same hmem hy
    rw [hnext, hprev, ← hd] at *
    exact ⟨(Function.update_of_ne hyi _ _).trans hsame.1,
      (Function.update_of_ne hyi _ _).trans hsame.2⟩

/-- `TCP_Timer_remove` of a timer in a list. -/
theorem remove_lists (h : Lists s lists) (ha : a ≠ 0) (hl : lists a = l ++ i :: r) :
    Lists (s.remove i) (update lists a (l ++ r)) := by
  have hcur : s.curlist i = a := ((h.mem a ha i).mp (by simp [hl])).2
  have hrep := h.rep a ha
  rw [hl] at hrep
  -- a timer without predecessor is the head
  have hhead : ¬ (s.prev i = 0 ∧ i ≠ s.head a) := by
    rintro ⟨hprev, hne⟩
    exact (hrep.prev_ne (by simp) hne).2 hprev
  have hs' : s.remove i = (s.withView a ((s.view a).cut 0 i)).clearLinks i := by
    unfold remove
    simp only [hcur, if_neg ha, if_neg hhead]
  exact cut_lists h ha hl rfl (by rw [hs']; rfl) (by rw [hs']) (by rw [hs']; rfl)

theorem remove_idle (hcur : s.curlist i = 0) : s.remove i = s := by
  unfold remove
  rw [hcur, if_pos rfl]

/-- A running timer leaves the queue with its links cleared. -/
theorem unqueue_lists (h : Lists s lists) (hq : q ≠ 0) (hl : lists q = l ++ i :: r) :
    Lists ((s.unqueue i q).clearLinks i) (update lists q (l ++ r)) :=
  cut_lists h hq hl rfl rfl rfl rfl

theorem unqueue_delay (h : Lists s lists) (hq : q ≠ 0) (hl : lists q = l ++ i :: r) (y : ℕ) :
    (s.unqueue i q).delay y = if r.head? = some y then s.delay y + s.delay i else s.delay y := by
  have hrep := h.rep q hq
  rw [hl] at hrep
  have hnext : s.next i = r.headD 0 := hrep.next_eq
  have hs : (s.unqueue i q).delay =
      if s.next i ≠ 0 then update s.delay (s.next i) (s.delay (s.next i) + s.delay i)
      else s.delay := rfl
  cases r with
  | nil =>
    rw [hs, if_neg fun hn => hn hnext]
    simp
  | cons n r =>
    replace hnext : s.next i = n := hnext
    have hn : n ≠ 0 := fun hc => hrep.null_notMem (by simp [hc])
    rw [hs, hnext, if_pos hn, List.head?_cons, Function.update_apply]
    by_cases hy : y = n
    · rw [if_pos hy, if_pos (congrArg some hy.symm), hy]
    · rw [if_neg hy, if_neg fun hc => hy (Option.some.inj hc).symm]

/-- The successor of a timer that leaves makes up for it. -/
theorem unqueue_coded (h : Lists s lists) (hq : q ≠ 0) (hl : lists q = l ++ i :: r)
    (hc : Coded s.delay D x (lists q)) : Coded (s.unqueue i q).delay D x (l ++ r) := by
  have hnodup := (h.rep q hq).nodup
  rw [hl] at hc hnodup
  have hdisj : ∀ y ∈ l, y ∉ r := fun y hy hyr =>
    (List.nodup_append.mp hnodup).2.2 y hy y (List.mem_cons_of_mem i hyr) rfl
  have hr := (List.nodup_cons.mp (List.nodup_append.mp hnodup).2.1).2
  refine hc.remove (fun y hy => ?_) (fun y hy => ?_) fun y hy => ?_
  · rw [unqueue_delay h hq hl, if_neg]
    exact fun hc => hdisj y hy (List.mem_of_mem_head? hc)
  · rw [unqueue_delay h hq hl, if_pos (Option.mem_def.mp hy)]
  · rw [unqueue_delay h hq hl, if_neg]
    intro hc
    cases r with
    | nil => exact absurd hy List.not_mem_nil
    | cons n r =>
      obtain rfl : n = y := by simpa using hc
      exact (List.nodup_cons.mp hr).1 hy

/-! ## Entering the queue -/

theorem scanQueue_spec (hrep : (s.view q).Represents 0 (l ++ r)) (hc : Coded s.delay D e (l ++ r))
    (hlow : edge D e l ≤ x) (n : ℕ) (hn : r.length ≤ n) :
    ∃ l' r', l ++ r = l' ++ r' ∧
      s.scanQueue n (l.getLastD 0) (r.headD 0) (x - edge D e l) =
        (l'.getLastD 0, r'.headD 0, x - edge D e l') ∧
      edge D e l' ≤ x ∧ ∀ y ∈ r'.head?, x < D y := by
  induction n generalizing l r with
  | zero =>
    obtain rfl := List.eq_nil_of_length_eq_zero (Nat.le_zero.mp hn)
    exact ⟨l, [], rfl, rfl, hlow, fun y hy => absurd hy (by simp)⟩
  | succ n ih =>
    cases r with
    | nil =>
      refine ⟨l, [], rfl, ?_, hlow, fun y hy => absurd hy (by simp)⟩
      simp [scanQueue]
    | cons y r =>
      obtain ⟨-, -, hy, -⟩ := coded_append.mp hc
      have hy0 : y ≠ 0 := fun hc => hrep.null_notMem (by simp [hc])
      by_cases hle : D y ≤ x
      · have hlast : l.getLastD 0 ≠ y := by
          rcases List.eq_nil_or_concat l with rfl | ⟨l, p, rfl⟩
          · exact Ne.symm hy0
          · have hnodup := hrep.nodup
            intro hc
            simp only [List.concat_eq_append, List.getLastD_concat] at hc
            simp [hc, List.nodup_append] at hnodup
        have hnext : s.next y = r.headD 0 := hrep.next_eq
        have hassoc : l ++ y :: r = (l ++ [y]) ++ r := by simp
        have hedge : edge D e (l ++ [y]) = D y := by rw [edge_append]; rfl
        obtain ⟨l', r', hl', hscan, hrest⟩ := ih (l := l ++ [y]) (r := r) (hassoc ▸ hrep)
          (hassoc ▸ hc) (by omega) (by simpa using hn)
        refine ⟨l', r', hassoc.trans hl', ?_, hrest⟩
        rw [← hscan, hedge, List.getLastD_concat, scanQueue, List.headD_cons, if_pos ⟨hy0, by omega⟩,
          if_neg hlast, hnext, hy]
        congr 1
        omega
      · refine ⟨l, y :: r, rfl, ?_, hlow, fun z hz => ?_⟩
        · rw [scanQueue, List.headD_cons, if_neg (by omega)]
        · obtain rfl : y = z := by simpa using hz
          omega

end Ticker
end Rtcs
end Mqx
