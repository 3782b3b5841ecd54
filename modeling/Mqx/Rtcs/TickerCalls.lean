import Mathlib.Tactic.Common
import Mqx.Rtcs.TickerLists

/-!
# The timer calls and the deadlines

What each call does to the deadlines of the timers in the queue.
-/

namespace Mqx
namespace Rtcs
namespace Ticker

open PointerList DeltaQueue
open Function (update)

/-- The lists stand, and the queue holds the deadlines `D` counted from `b`, none of them
farther away than a delay can say. -/
structure Timed (s : Ticker) (q : ℕ) (b : ℤ) (D : ℕ → ℤ) (lists : ℕ → List ℕ) : Prop where
  threaded : Lists s lists
  coded : Coded s.delay D b (lists q)
  near : ∀ i ∈ lists q, D i - b < 2 ^ 31

variable {s : Ticker} {lists : ℕ → List ℕ} {D : ℕ → ℤ} {i q n p : ℕ} {l r : List ℕ} {b x δ : ℤ}

/-- Neither the lists nor the deltas of the queue have changed. -/
theorem Timed.congr {t : Ticker} (h : Timed s q b D lists) (hview : t.view = s.view)
    (hcur : t.curlist = s.curlist) (htimers : t.timers = s.timers)
    (hdelay : ∀ y ∈ lists q, t.delay y = s.delay y) : Timed t q b D lists := by
  refine ⟨⟨fun a ha => ?_, fun a ha y => ?_⟩, h.coded.congr hdelay fun _ _ => rfl, h.near⟩
  · rw [hview]
    exact h.threaded.rep a ha
  · rw [hcur, IsTimer, htimers]
    exact h.threaded.mem a ha y

theorem Timed.of_lists {s' : Ticker} {lists' : ℕ → List ℕ} (h : Timed s q b D lists)
    (hlists : Lists s' lists') (hq : lists' q = lists q) (hdelay : s'.delay = s.delay) :
    Timed s' q b D lists' :=
  ⟨hlists, by rw [hq, hdelay]; exact h.coded, by rw [hq]; exact h.near⟩

/-! ## Into the queue -/

theorem place_clearLinks (s : Ticker) (q p i n : ℕ) (δ : ℤ) :
    (s.clearLinks i).place q p i n δ = s.place q p i n δ := by
  simp [place, clearLinks, withView, view, DList.insertBetween]

theorem place_view (s : Ticker) (q p i n : ℕ) (δ : ℤ) :
    (s.place q p i n δ).view q = (s.view q).insertBetween 0 p i n := by
  unfold place
  by_cases hn : n ≠ 0
  · simp only [if_pos hn]
    exact view_withView _
  · simp only [if_neg hn]
    exact view_withView _

theorem place_head (s : Ticker) (p i n : ℕ) (δ : ℤ) {a : ℕ} (ha : a ≠ q) :
    (s.place q p i n δ).head a = s.head a := by
  unfold place
  by_cases hn : n ≠ 0
  · simp only [if_pos hn]
    exact Function.update_of_ne ha _ _
  · simp only [if_neg hn]
    exact Function.update_of_ne ha _ _

theorem place_delay (s : Ticker) (q p : ℕ) (δ : ℤ) (hne : n ≠ i) (y : ℕ) :
    (s.place q p i n δ).delay y =
      if y = i then δ else if y = n ∧ n ≠ 0 then s.delay y - δ else s.delay y := by
  unfold place
  by_cases hn : n ≠ 0
  · simp only [if_pos hn, Function.update_apply]
    by_cases hyn : y = n
    · simp [hyn, hne, hn]
    · simp [hyn]
  · simp only [if_neg hn, Function.update_apply]
    simp [hn]

/-- What the queue operations leave alone. -/
structure SameTimers (s s' : Ticker) : Prop where
  donelist : s'.donelist = s.donelist
  reload : s'.reload = s.reload
  lasttime : s'.lasttime = s.lasttime
  timers : s'.timers = s.timers

theorem SameTimers.refl (s : Ticker) : SameTimers s s := ⟨rfl, rfl, rfl, rfl⟩

theorem SameTimers.trans {s₁ s₂ s₃ : Ticker} (h : SameTimers s₁ s₂) (h' : SameTimers s₂ s₃) :
    SameTimers s₁ s₃ :=
  ⟨h'.donelist.trans h.donelist, h'.reload.trans h.reload, h'.lasttime.trans h.lasttime,
    h'.timers.trans h.timers⟩

theorem place_same (s : Ticker) (q p i n : ℕ) (δ : ℤ) :
    SameTimers s (s.place q p i n δ) ∧ (s.place q p i n δ).curlist = update s.curlist i q := by
  unfold place
  by_cases hn : n ≠ 0
  · simp only [if_pos hn]
    exact ⟨⟨rfl, rfl, rfl, rfl⟩, trivial⟩
  · simp only [if_neg hn]
    exact ⟨⟨rfl, rfl, rfl, rfl⟩, trivial⟩

/-- A timer in no list enters the queue where its deadline `x` belongs. -/
theorem Timed.place (h : Timed s q b D lists) (hq : q ≠ 0) (hi : s.IsTimer i)
    (hidle : s.curlist i = 0) (hl : lists q = l ++ r) (hlow : edge D b l ≤ x)
    (hhigh : ∀ y ∈ r.head?, x ≤ D y) (hx : x - b < 2 ^ 31) :
    Timed (s.place q (l.getLastD 0) i (r.headD 0) (x - edge D b l)) q b (update D i x)
      (update lists q (l ++ i :: r)) := by
  have hnot : i ∉ l ++ r := fun hc =>
    hq (((h.threaded.mem q hq i).mp (hl ▸ hc)).2.symm.trans hidle)
  have hrep := h.threaded.rep q hq
  rw [hl] at hrep
  have hnodup := hrep.nodup
  have hne : r.headD 0 ≠ i := by
    cases r with
    | nil => exact Nat.ne_of_lt hi.1
    | cons n r => exact fun hc => hnot (by simp [← hc])
  have hsame := place_same s q (l.getLastD 0) i (r.headD 0) (x - edge D b l)
  refine ⟨h.threaded.insert hq hi hidle hl (place_view ..) (fun a ha => place_head _ _ _ _ _ ha)
    hsame.1.timers hsame.2, ?_, ?_⟩
  · rw [Function.update_self]
    have hcoded := h.coded
    rw [hl] at hcoded
    have hdisj := (List.nodup_append.mp hnodup).2.2
    refine hcoded.insert hnot (fun y hy => Function.update_of_ne hy _ _) ?_ ?_ ?_ ?_ ?_ ?_
    · rwa [Function.update_self]
    · rwa [Function.update_self]
    · rw [place_delay _ _ _ _ hne, if_pos rfl, Function.update_self]
    · intro y hy
      have hyi : y ≠ i := fun hc => hnot (hc ▸ List.mem_append_left r hy)
      have hyn : ¬ (y = r.headD 0 ∧ r.headD 0 ≠ 0) := by
        cases r with
        | nil => simp
        | cons n r => exact fun hc => hdisj y hy y (by simp [hc.1]) rfl
      rw [place_delay _ _ _ _ hne, if_neg hyi, if_neg hyn]
    · intro y hy
      have hyi : y ≠ i := fun hc => hnot (hc ▸ List.mem_append_right l (List.mem_of_mem_head? hy))
      cases r with
      | nil => exact absurd hy (by simp)
      | cons n r =>
        obtain rfl : n = y := by simpa using hy
        have hn0 : n ≠ 0 := fun hc => hrep.null_notMem (by simp [hc])
        rw [place_delay _ _ _ _ hne, if_neg hyi, if_pos ⟨rfl, hn0⟩, Function.update_self]
    · intro y hy
      have hyi : y ≠ i := fun hc => hnot (hc ▸ List.mem_append_right l (List.mem_of_mem_tail hy))
      cases r with
      | nil => exact absurd hy List.not_mem_nil
      | cons n r =>
        have hyn : y ≠ n := by
          rintro rfl
          exact (List.nodup_cons.mp (List.nodup_append.mp hnodup).2.1).1 hy
        rw [place_delay _ _ _ _ hne, if_neg hyi, if_neg fun hc => hyn hc.1]
  · intro y hy
    rw [Function.update_self] at hy
    by_cases hyi : y = i
    · rwa [hyi, Function.update_self]
    · rw [Function.update_of_ne hyi]
      refine h.near y (hl ▸ ?_)
      simp only [List.mem_append, List.mem_cons] at hy ⊢
      tauto

/-- `TCP_Timer_schedule` counts from the base of the queue. -/
theorem Timed.schedule {t : Ticker} {c : ℤ} (h : Timed s q b D lists) (hq : q ≠ 0)
    (hi : s.IsTimer i) (hidle : s.curlist i = 0) (hview : t.view = s.view)
    (hcur : t.curlist = s.curlist) (htimers : t.timers = s.timers)
    (hdelay : t.delay = update s.delay i c) (hc : 0 ≤ c) (hc' : c < 2 ^ 31) :
    (∃ lists', Timed (t.schedule i q) q b (update D i (b + c)) lists') ∧
      SameTimers t (t.schedule i q) ∧ (t.schedule i q).curlist = update s.curlist i q := by
  have hnot : ∀ y ∈ lists q, y ≠ i := fun y hy hy' =>
    hq (((h.threaded.mem q hq y).mp hy).2.symm.trans (hy' ▸ hidle))
  have h' := h.congr hview hcur htimers fun y hy => by
    rw [hdelay, Function.update_of_ne (hnot y hy)]
  have hidle' : t.curlist i = 0 := by rw [hcur, hidle]
  have hs : t = { t with curlist := update t.curlist i 0 } := by
    rw [← hidle', Function.update_eq_self]
  have hrep := h'.threaded.rep q hq
  obtain ⟨l, r, hl, hscan, hlow, hhigh⟩ := scanQueue_spec (l := []) (r := lists q) (x := b + c)
    hrep h'.coded (by simpa using hc) t.timers (h'.threaded.length_le hq)
  have hsched : t.schedule i q =
      t.place q (l.getLastD 0) i (r.headD 0) (b + c - edge D b l) := by
    have hhead : t.head q = (lists q).headD 0 := hrep.head_eq
    unfold Ticker.schedule
    simp only [← hs]
    rw [hhead, hdelay, Function.update_self]
    simp only [List.getLastD_nil, edge_nil, add_sub_cancel_left] at hscan
    rw [hscan]
  rw [hsched, ← hcur]
  have hi' : t.IsTimer i := by rwa [IsTimer, htimers]
  exact ⟨⟨_, h'.place hq hi' hidle' hl hlow (fun y hy => (hhigh y hy).le) (by omega)⟩,
    place_same ..⟩

/-! ## Out of the queue -/

theorem Timed.split (h : Timed s q b D lists) (hq : q ≠ 0) (hi : s.IsTimer i)
    (hcur : s.curlist i = q) : ∃ l r, lists q = l ++ i :: r :=
  List.append_of_mem ((h.threaded.mem q hq i).mpr ⟨hi, hcur⟩)

theorem Timed.unqueue (h : Timed s q b D lists) (hq : q ≠ 0) (hl : lists q = l ++ i :: r) :
    Timed ((s.unqueue i q).clearLinks i) q b D (update lists q (l ++ r)) := by
  refine ⟨unqueue_lists h.threaded hq hl, ?_, fun y hy => ?_⟩
  · rw [Function.update_self]
    exact unqueue_coded h.threaded hq hl h.coded
  · rw [Function.update_self] at hy
    refine h.near y (hl ▸ ?_)
    simp only [List.mem_append, List.mem_cons] at hy ⊢
    tauto

theorem unqueue_same (s : Ticker) (i q : ℕ) :
    SameTimers s ((s.unqueue i q).clearLinks i) ∧
      ((s.unqueue i q).clearLinks i).curlist = update s.curlist i 0 :=
  ⟨⟨rfl, rfl, rfl, rfl⟩, rfl⟩

/-- A timer that is not running leaves its list, if it is in one. -/
theorem Timed.remove (h : Timed s q b D lists) (hi : s.IsTimer i) (hcur : s.curlist i ≠ q) :
    (∃ lists', Timed (s.remove i) q b D lists') ∧ SameTimers s (s.remove i) ∧
      (s.remove i).curlist = update s.curlist i 0 := by
  by_cases h0 : s.curlist i = 0
  · rw [remove_idle h0]
    exact ⟨⟨lists, h⟩, SameTimers.refl s, by rw [← h0, Function.update_eq_self]⟩
  · obtain ⟨l, r, hl⟩ := List.append_of_mem ((h.threaded.mem _ h0 i).mpr ⟨hi, rfl⟩)
    refine ⟨⟨_, h.of_lists (remove_lists h.threaded h0 hl) ?_ ?_⟩, ?_, ?_⟩
    · exact Function.update_of_ne (Ne.symm hcur) _ _
    all_goals
      unfold Ticker.remove
      simp only [if_neg h0]
    · rfl
    · exact ⟨rfl, rfl, rfl, rfl⟩
    · rfl

/-- `TCP_Timer_stop` leaves the other deadlines as they are. -/
theorem Timed.stop (h : Timed s q b D lists) (hq : q ≠ 0) (hi : s.IsTimer i) :
    (∃ lists', Timed (s.stop i q).1 q b D lists') ∧ SameTimers s (s.stop i q).1 ∧
      (s.stop i q).1.curlist = update s.curlist i 0 := by
  unfold Ticker.stop
  by_cases hcur : s.curlist i = q
  · rw [if_neg (not_not.mpr hcur)]
    obtain ⟨l, r, hl⟩ := h.split hq hi hcur
    exact ⟨⟨_, h.unqueue hq hl⟩, unqueue_same s i q⟩
  · rw [if_pos hcur]
    exact h.remove hi hcur

/-- `TCP_Timer_expire` of a timer in no list. -/
theorem Timed.expire (h : Timed s q b D lists) (hi : s.IsTimer i) (hidle : s.curlist i = 0)
    (hdone : s.donelist i ≠ q) :
    (∃ lists', Timed (s.expire i) q b D lists') ∧ SameTimers s (s.expire i) ∧
      (s.expire i).curlist = update s.curlist i (s.donelist i) := by
  unfold Ticker.expire
  by_cases h0 : s.donelist i ≠ 0
  · simp only [if_pos h0]
    have hrep := h.threaded.rep _ h0
    refine ⟨⟨_, h.of_lists (h.threaded.insert (l := []) h0 hi hidle rfl ?_ ?_ rfl rfl) ?_ rfl⟩,
      ⟨rfl, rfl, rfl, rfl⟩, trivial⟩
    · exact (view_withView _).trans (by rw [List.getLastD_nil, ← hrep.head_eq]; rfl)
    · exact fun a ha => Function.update_of_ne ha _ _
    · exact Function.update_of_ne (Ne.symm hdone) _ _
  · simp only [if_neg h0]
    have hcur : update s.curlist i 0 = s.curlist := by rw [← hidle, Function.update_eq_self]
    refine ⟨⟨lists, h.of_lists ⟨fun a ha => ?_, fun a ha y => ?_⟩ rfl rfl⟩, ⟨rfl, rfl, rfl, rfl⟩, ?_⟩
    · have hout : ∀ y ∈ lists a, y ≠ i := fun y hy hc =>
        ha (((h.threaded.mem a ha y).mp hy).2.symm.trans (hc ▸ hidle))
      exact (h.threaded.rep a ha).congr rfl (fun y hy => Function.update_of_ne (hout y hy) _ _)
        fun y hy => Function.update_of_ne (hout y hy) _ _
    · have hmem := h.threaded.mem a ha y
      rw [← hcur] at hmem
      exact hmem
    · rw [not_not.mp h0]
      rfl

/-- The first timer leaves, and the queue counts from its deadline. -/
theorem Timed.popHead (h : Timed s q b D lists) (hq : q ≠ 0) (hl : lists q = i :: r) :
    Timed (s.popHead q) q (D i) D (update lists q r) ∧ SameTimers s (s.popHead q) ∧
      (s.popHead q).curlist = update s.curlist i 0 ∧ (s.popHead q).delay = s.delay := by
  have hrep := h.threaded.rep q hq
  rw [hl] at hrep
  have hhead : s.head q = i := hrep.head_eq
  have hprev : s.prev i = 0 := hrep.prev_eq (l := [])
  have hnext : s.next i = r.headD 0 := hrep.next_eq (l := [])
  have hback : update s.prev (s.next i) 0 i = 0 := by rw [Function.update_apply, hprev, ite_self]
  have hs' : s.popHead q = (s.withView q ((s.view q).cut 0 i)).clearLinks i := by
    unfold Ticker.popHead
    by_cases hn : s.next i ≠ 0
    · simp [view, withView, DList.cut, hhead, hprev, hn, hback]
    · simp [view, withView, DList.cut, hhead, hprev, not_not.mp hn]
  have hcoded := h.coded
  rw [hl] at hcoded
  have hthread : Lists (s.popHead q) (update lists q r) :=
    cut_lists (l := []) h.threaded hq hl rfl (by rw [hs']; rfl) (by rw [hs']) (by rw [hs']; rfl)
  have hle := hcoded.1
  rw [hs'] at hthread ⊢
  refine ⟨⟨hthread, ?_, fun y hy => ?_⟩, ⟨rfl, rfl, rfl, rfl⟩, rfl, rfl⟩
  · rw [Function.update_self]
    exact hcoded.2.2
  · rw [Function.update_self] at hy
    have hnear := h.near y (hl ▸ List.mem_cons_of_mem i hy)
    omega

/-! ## Moving in the queue -/

/-- A deadline moves within the gap of its neighbours. -/
theorem Timed.shift {s' : Ticker} (h : Timed s q b D lists) (hq : q ≠ 0)
    (hl : lists q = l ++ i :: r) (hlow : edge D b l ≤ x) (hhigh : ∀ y ∈ r.head?, x ≤ D y)
    (hx : x - b < 2 ^ 31) (hview : s'.view = s.view) (hcur : s'.curlist = s.curlist)
    (htimers : s'.timers = s.timers)
    (hdelay : ∀ y, s'.delay y = if y = i then x - edge D b l
      else if r.head? = some y then s.delay y - (x - D i) else s.delay y) :
    Timed s' q b (update D i x) lists := by
  have hnodup := (h.threaded.rep q hq).nodup
  rw [hl] at hnodup
  have hnot : i ∉ l ++ r := (List.nodup_middle.mp hnodup).notMem
  have hcodedi := h.coded
  rw [hl, coded_append, coded_cons] at hcodedi
  have hcoded := unqueue_coded h.threaded hq hl h.coded
  have hδ := unqueue_delay h.threaded hq hl
  -- the queue without the timer, which goes back to its old place
  have hout : ∀ y ∈ l ++ r, y ≠ i := fun y hy hc => hnot (hc ▸ hy)
  have hother : ∀ y, y ≠ i → s'.delay y =
      if r.head? = some y then (s.unqueue i q).delay y - (x - edge D b l)
      else (s.unqueue i q).delay y := by
    intro y hy
    rw [hdelay, if_neg hy, hδ]
    by_cases hhead : r.head? = some y
    · rw [if_pos hhead, if_pos hhead, if_pos hhead]
      omega
    · rw [if_neg hhead, if_neg hhead, if_neg hhead]
  have hdisj := (List.nodup_append.mp hnodup).2.2
  have hr := (List.nodup_cons.mp (List.nodup_append.mp hnodup).2.1).2
  have hmoved : Coded s'.delay (update D i x) b (l ++ i :: r) := by
    refine hcoded.insert hnot (fun y hy => Function.update_of_ne hy _ _) ?_ ?_ ?_ ?_ ?_ ?_
    · rwa [Function.update_self]
    · rwa [Function.update_self]
    · rw [hdelay, if_pos rfl, Function.update_self]
    · intro y hy
      rw [hother y (hout y (List.mem_append_left r hy)), if_neg]
      exact fun hc => hdisj y hy y (List.mem_cons_of_mem i (List.mem_of_mem_head? hc)) rfl
    · intro y hy
      rw [hother y (hout y (List.mem_append_right l (List.mem_of_mem_head? hy))),
        if_pos (Option.mem_def.mp hy), Function.update_self]
    · intro y hy
      rw [hother y (hout y (List.mem_append_right l (List.mem_of_mem_tail hy))), if_neg]
      intro hc
      cases r with
      | nil => exact absurd hy List.not_mem_nil
      | cons n r =>
        obtain rfl : n = y := by simpa using hc
        exact (List.nodup_cons.mp hr).1 hy
  have hsame := h.congr (t := { s' with delay := s.delay }) hview hcur htimers fun _ _ => rfl
  refine ⟨⟨hsame.threaded.rep, hsame.threaded.mem⟩, hl ▸ hmoved, fun y hy => ?_⟩
  by_cases hyi : y = i
  · rwa [hyi, Function.update_self]
  · rw [Function.update_of_ne hyi]
    exact h.near y hy

theorem advanceScan_spec (hrep : (s.view q).Represents 0 (l ++ r)) (hc : Coded s.delay D b (l ++ r))
    (hne : l ≠ []) (hlow : edge D b l ≤ x) (n : ℕ) (hn : r.length ≤ n) :
    ∃ l' r', l ++ r = l' ++ r' ∧
      s.advanceScan n (l.getLastD 0) (x - edge D b l) =
        (l'.getLastD 0, r'.headD 0, x - edge D b l') ∧
      edge D b l' ≤ x ∧ ∀ y ∈ r'.head?, x < D y := by
  have hnext : s.next (l.getLastD 0) = r.headD 0 := by
    obtain ⟨l, p, rfl⟩ := (List.eq_nil_or_concat l).resolve_left hne
    rw [List.concat_eq_append] at hrep ⊢
    rw [List.getLastD_concat]
    exact DList.Represents.next_eq (l := l) (by simpa using hrep)
  induction n generalizing l r with
  | zero =>
    obtain rfl := List.eq_nil_of_length_eq_zero (Nat.le_zero.mp hn)
    refine ⟨l, [], rfl, ?_, hlow, fun y hy => absurd hy (by simp)⟩
    rw [advanceScan, hnext]
  | succ n ih =>
    cases r with
    | nil =>
      replace hnext : s.next (l.getLastD 0) = 0 := hnext
      refine ⟨l, [], rfl, ?_, hlow, fun y hy => absurd hy (by simp)⟩
      rw [advanceScan, if_pos hnext]
      rfl
    | cons y r =>
      replace hnext : s.next (l.getLastD 0) = y := hnext
      obtain ⟨-, -, hy, -⟩ := coded_append.mp hc
      have hy0 : y ≠ 0 := fun hc => hrep.null_notMem (by simp [hc])
      rw [advanceScan, hnext, if_neg hy0]
      by_cases hle : D y ≤ x
      · have hassoc : l ++ y :: r = (l ++ [y]) ++ r := by simp
        have hedge : edge D b (l ++ [y]) = D y := by rw [edge_append]; rfl
        have hlast : (l ++ [y]).getLastD 0 = y := List.getLastD_concat
        obtain ⟨l', r', hl', hscan, hrest⟩ := ih (l := l ++ [y]) (r := r) (hassoc ▸ hrep)
          (hassoc ▸ hc) (by simp) (by omega) (by simpa using hn)
          (by rw [hlast]; exact hrep.next_eq)
        refine ⟨l', r', hassoc.trans hl', ?_, hrest⟩
        rw [← hscan, hedge, hlast, if_neg (by omega), hy]
        congr 1
        omega
      · refine ⟨l, y :: r, rfl, ?_, hlow, fun z hz => ?_⟩
        · rw [if_pos (by omega)]
          rfl
        · obtain rfl : y = z := by simpa using hz
          omega

/-- `TCP_Timer_advance` of a running timer adds to its deadline. -/
theorem Timed.advanceActive (h : Timed s q b D lists) (hq : q ≠ 0) (hi : s.IsTimer i)
    (hcur : s.curlist i = q) (hlow : 0 ≤ s.delay i + δ) (hnear : D i + δ - b < 2 ^ 31) :
    (∃ lists', Timed (s.advanceActive i δ q) q b (update D i (D i + δ)) lists') ∧
      SameTimers s (s.advanceActive i δ q) ∧ (s.advanceActive i δ q).curlist = s.curlist := by
  obtain ⟨l, r, hl⟩ := h.split hq hi hcur
  have hrep := h.threaded.rep q hq
  rw [hl] at hrep
  have hcoded := h.coded
  rw [hl, coded_append, coded_cons] at hcoded
  have hδi := hcoded.2.2.1
  have hedge : edge D b l ≤ D i + δ := by omega
  have hnext : s.next i = r.headD 0 := hrep.next_eq
  unfold Ticker.advanceActive
  by_cases hn : s.next i = 0
  · -- the last timer
    simp only [if_pos hn]
    have hr : r = [] := by
      cases r with
      | nil => rfl
      | cons n r =>
        have hn0 : n = 0 := hnext.symm.trans hn
        exact absurd (by simp [hn0]) hrep.null_notMem
    subst hr
    refine ⟨⟨lists, h.shift hq hl hedge (fun y hy => absurd hy (by simp)) hnear rfl rfl rfl ?_⟩,
      ⟨rfl, rfl, rfl, rfl⟩, trivial⟩
    intro y
    show update s.delay i (s.delay i + δ) y = _
    by_cases hy : y = i
    · rw [hy, Function.update_self, if_pos rfl]
      omega
    · rw [Function.update_of_ne hy, if_neg hy, if_neg (by simp)]
  · cases r with
    | nil => exact absurd hnext hn
    | cons n r =>
      replace hnext : s.next i = n := hnext
      obtain ⟨hDn, hδn, -⟩ := hcoded.2.2.2
      have hni : n ≠ i := hnext ▸ hrep.next_ne
      simp only [hnext] at hn ⊢
      simp only [if_neg hn]
      by_cases hle : δ ≤ s.delay n
      · -- it stays before its successor
        simp only [if_pos hle]
        refine ⟨⟨lists, h.shift hq hl hedge (fun y hy => ?_) hnear rfl rfl rfl ?_⟩,
          ⟨rfl, rfl, rfl, rfl⟩, trivial⟩
        · obtain rfl : n = y := by simpa using hy
          omega
        · intro y
          show update (update s.delay n (s.delay n - δ)) i (s.delay i + δ) y = _
          by_cases hy : y = i
          · rw [hy, Function.update_self, if_pos rfl]
            omega
          · rw [Function.update_of_ne hy, if_neg hy, List.head?_cons, Function.update_apply]
            by_cases hyn : y = n
            · rw [if_pos hyn, if_pos (congrArg some hyn.symm), hyn]
              omega
            · rw [if_neg hyn, if_neg fun hc => hyn (Option.some.inj hc).symm]
      · -- it goes behind later ones
        simp only [if_neg hle]
        have hout := h.unqueue hq hl
        have hrep' : ((s.unqueue i q).view q).Represents 0 ((l ++ [n]) ++ r) := by
          have hcut := hrep.cut
          have hview : (s.unqueue i q).view q = (s.view q).cut 0 i := view_withView _
          rw [hview]
          simpa using hcut
        have hcoded' : Coded (s.unqueue i q).delay D b ((l ++ [n]) ++ r) := by
          simpa using unqueue_coded h.threaded hq hl h.coded
        have hedge' : edge D b (l ++ [n]) = D n := by rw [edge_append]; rfl
        have hlen := h.threaded.length_le hq
        obtain ⟨l', r', hl', hscan, hlow', hhigh'⟩ := advanceScan_spec hrep' hcoded' (by simp)
          (x := D i + δ) (by omega) s.timers (by simp [hl] at hlen; omega)
        have hstart : δ - s.delay n = D i + δ - edge D b (l ++ [n]) := by omega
        rw [List.getLastD_concat, ← hstart] at hscan
        rw [hscan]
        have hplace := hout.place hq hi (Function.update_self i 0 _)
          (by rw [Function.update_self, ← hl']; simp) hlow' (fun y hy => (hhigh' y hy).le) hnear
        rw [place_clearLinks] at hplace
        have hsame := place_same (s.unqueue i q) q (l'.getLastD 0) i (r'.headD 0)
          (D i + δ - edge D b l')
        refine ⟨⟨_, hplace.congr rfl rfl rfl fun _ _ => rfl⟩, ?_, ?_⟩
        · exact ⟨hsame.1.donelist, hsame.1.reload, hsame.1.lasttime, hsame.1.timers⟩
        · refine hsame.2.trans ?_
          rw [← hcur]
          exact Function.update_eq_self i s.curlist

end Ticker
end Rtcs
end Mqx
