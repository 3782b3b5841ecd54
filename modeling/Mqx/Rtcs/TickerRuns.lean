import Mathlib.Tactic.Common
import Mqx.Rtcs.TickerTick

/-!
# Timers over whole runs

The calls at non-decreasing times, the deadlines they ask for, and when the queue keeps them.
-/

namespace Mqx
namespace Rtcs

open PointerList DeltaQueue
open Function (update)

/-- The calls, with the milliseconds at which they are made. -/
inductive TimerCall where
  | start (i : ℕ) (delay reload t : ℤ)
  | stop (i : ℕ) (t : ℤ)
  | advance (i : ℕ) (delta t : ℤ)
  | oneshotMax (i : ℕ) (delay t : ℤ)
  | tick (t : ℤ)
deriving DecidableEq

namespace TimerCall

def time : TimerCall → ℤ
  | start _ _ _ t => t
  | stop _ t => t
  | advance _ _ t => t
  | oneshotMax _ _ t => t
  | tick t => t

/-- The timer that is passed to the call. -/
def timer : TimerCall → Option ℕ
  | start i _ _ _ => some i
  | stop i _ => some i
  | advance i _ _ => some i
  | oneshotMax i _ _ => some i
  | tick _ => none

/-- The arguments of type `int32_t`. -/
def args : TimerCall → List ℤ
  | start _ delay reload _ => [delay, reload]
  | stop _ _ => []
  | advance _ delta _ => [delta]
  | oneshotMax _ delay _ => [delay]
  | tick _ => []

end TimerCall

/-- The deadlines that the calls have asked for, the time of the last tick and the time of the
last call. -/
structure Due where
  deadline : ℕ → ℤ
  last : ℤ
  now : ℤ

namespace Ticker

/-- One call. -/
def call (q : ℕ) (s : Ticker) : TimerCall → Ticker
  | .start i delay reload t => (s.start i delay reload q (uint32 t)).1
  | .stop i _ => (s.stop i q).1
  | .advance i delta t => (s.advance i delta q (uint32 t)).1
  | .oneshotMax i delay t => (s.oneshotMax i delay q (uint32 t)).1
  | .tick t => (s.tick q (uint32 t)).1

def run (q : ℕ) (s : Ticker) (calls : List TimerCall) : Ticker := calls.foldl (call q) s

/-- What a call asks of the deadlines. A running timer is advanced from its deadline, and
`TCP_Timer_oneshot_max` only ever brings its deadline forward. -/
def due (q : ℕ) (s : Ticker) (g : Due) : TimerCall → Due
  | .start i delay reload t =>
    { g with
      deadline := if reload < 0 then g.deadline
        else update g.deadline i (t + if delay ≤ 0 then reload else delay)
      now := t }
  | .stop _ t => { g with now := t }
  | .advance i delta t =>
    { g with
      deadline := update g.deadline i
        (if s.curlist i = q then g.deadline i + delta else t + if delta ≤ 0 then 0 else delta)
      now := t }
  | .oneshotMax i delay t =>
    { g with
      deadline := update g.deadline i
        (if s.curlist i = q then min (g.deadline i) (t + delay)
         else if s.curlist i ≠ 0 ∧ s.curlist i = s.donelist i then g.deadline i else t + delay)
      now := t }
  | .tick t =>
    ⟨fun i => nextDeadline t (g.deadline i) (s.reload i), t, t⟩

/-- A timer that is not running is scheduled at the time of the last tick, or not at all. -/
def IdleRegular (g : Due) (delay reload t : ℤ) : Prop :=
  t = g.last ∨ delay ≤ 0 ∧ reload = 0

/-- When `TCP_Timer_start` meets the deadline: a running timer whose delay gets longer counts
from its predecessor, whose deadline has to be the time of the call. -/
def StartRegular (q : ℕ) (s : Ticker) (g : Due) (i : ℕ) (delay reload t : ℤ) : Prop :=
  0 ≤ reload →
    if s.curlist i = q then
      let delta := int32 (s.absTo i - uint32 t)
      if delta < delay then
        0 < delay ∧ g.deadline i - s.delay i = t ∧ t + delay - g.last < 2 ^ 31
      else if delay < delta then IdleRegular g delay reload t
      else 0 < delay ∧ g.deadline i = t + delay ∧ s.reload i = reload
    else IdleRegular g delay reload t

/-- When a call meets the deadlines. -/
def Regular (q : ℕ) (s : Ticker) (g : Due) : TimerCall → Prop
  | .start i delay reload t => StartRegular q s g i delay reload t
  | .stop _ _ => True
  | .advance i delta t =>
    if s.curlist i = q then 0 ≤ delta ∧ g.deadline i + delta - g.last < 2 ^ 31
    else IdleRegular g delta 0 t
  | .oneshotMax i delay t =>
    if s.curlist i = q then
      if s.absTo i ≤ uint32 t + uint32 delay then g.deadline i ≤ t + delay
      else delay ≤ 0 ∨ t = g.last ∧ t + delay ≤ g.deadline i
    else s.curlist i ≠ 0 ∧ s.curlist i = s.donelist i ∨ IdleRegular g delay 0 t
  | .tick t => t - g.last < 2 ^ 32

/-- A call of this interface: a timer of this memory, arguments of their type and a time that
does not go back. -/
structure Proper (s : Ticker) (g : Due) (c : TimerCall) : Prop where
  timer : ∀ i ∈ c.timer, s.IsTimer i
  args : ∀ x ∈ c.args, -2 ^ 31 ≤ x ∧ x < 2 ^ 31
  time : g.now ≤ c.time

/-- A run all of whose calls meet their condition. -/
def RegularRun (q : ℕ) : Ticker → Due → List TimerCall → Prop
  | _, _, [] => True
  | s, g, c :: calls =>
    s.Proper g c ∧ s.Regular q g c ∧ RegularRun q (s.call q c) (s.due q g c) calls

/-- No timer is running or expired; the last tick was at `t`. -/
structure Initial (s : Ticker) (q : ℕ) (t : ℤ) : Prop where
  queue : q ≠ 0
  heads : ∀ a, s.head a = 0
  curlist : ∀ i, s.curlist i = 0
  sane : s.Sane q
  lasttime : s.lasttime = uint32 t

/-- The invariant of the runs. -/
structure OnTime (s : Ticker) (q : ℕ) (g : Due) : Prop where
  timed : ∃ lists, Timed s q g.last g.deadline lists
  sane : s.Sane q
  lasttime : s.lasttime = uint32 g.last
  now : g.last ≤ g.now

variable {s s' : Ticker} {lists : ℕ → List ℕ} {D D' : ℕ → ℤ} {g : Due} {i j q : ℕ}
  {b d r t x : ℤ} {c : TimerCall} {calls : List TimerCall}

/-! ## Starting and stopping -/

/-- What a call about the timer `i` leaves alone. -/
structure Others (s s' : Ticker) (i : ℕ) : Prop where
  donelist : s'.donelist = s.donelist
  lasttime : s'.lasttime = s.lasttime
  timers : s'.timers = s.timers
  reload : ∀ j ≠ i, s'.reload j = s.reload j
  curlist : ∀ j ≠ i, s'.curlist j = s.curlist j

theorem Others.trans {s₁ s₂ s₃ : Ticker} (h : Others s₁ s₂ i) (h' : Others s₂ s₃ i) :
    Others s₁ s₃ i :=
  ⟨h'.donelist.trans h.donelist, h'.lasttime.trans h.lasttime, h'.timers.trans h.timers,
    fun j hj => (h'.reload j hj).trans (h.reload j hj),
    fun j hj => (h'.curlist j hj).trans (h.curlist j hj)⟩

theorem SameTimers.others (h : SameTimers s s') {a : ℕ} (hcur : s'.curlist = update s.curlist i a) :
    Others s s' i :=
  ⟨h.donelist, h.lasttime, h.timers, fun j _ => congrFun h.reload j,
    fun j hj => by rw [hcur, Function.update_of_ne hj]⟩

/-- Deadlines outside the queue do not matter. -/
theorem Timed.off_queue (h : Timed s q b D lists) (hq : q ≠ 0) (hcur : s.curlist i ≠ q) (x : ℤ) :
    Timed s q b (update D i x) lists := by
  have hD : ∀ y ∈ lists q, update D i x y = D y := by
    intro y hy
    refine Function.update_of_ne ?_ _ _
    rintro rfl
    exact hcur ((h.threaded.mem q hq y).mp hy).2
  refine ⟨h.threaded, h.coded.congr (fun _ _ => rfl) hD, fun y hy => ?_⟩
  rw [hD y hy]
  exact h.near y hy

/-- The end of `TCP_Timer_start`. -/
theorem Timed.startIdle (h : Timed s q b D lists) (hq : q ≠ 0) (hi : s.IsTimer i)
    (hidle : s.curlist i = 0) (hdone : s.donelist i ≠ q) (hd : d < 2 ^ 31) (hr : 0 ≤ r)
    (hr' : r < 2 ^ 31) (hreg : t = b ∨ d ≤ 0 ∧ r = 0) :
    (∃ lists', Timed (s.startIdle i d r q (uint32 t)).1 q b
        (update D i (t + if d ≤ 0 then r else d)) lists') ∧
      Others s (s.startIdle i d r q (uint32 t)).1 i ∧
      (s.startIdle i d r q (uint32 t)).1.reload i = r ∧
      (s.startIdle i d r q (uint32 t)).1.curlist i =
        if (if d ≤ 0 then r else d) = 0 then s.donelist i else q := by
  have hset := h.congr (t := { s with
    reload := update s.reload i r, count := update s.count i 0 }) rfl rfl rfl fun _ _ => rfl
  unfold Ticker.startIdle
  simp only
  generalize hc : (if d ≤ 0 then r else d) = c
  have hc0 : 0 ≤ c ∧ c < 2 ^ 31 := by
    subst hc
    split_ifs <;> omega
  by_cases h0 : c = 0
  · rw [if_pos h0, if_pos h0]
    obtain ⟨⟨lists', hexp⟩, hsame, hcur⟩ := hset.expire hi hidle hdone
    have hcuri := congrFun hcur i
    rw [Function.update_self] at hcuri
    refine ⟨⟨lists', hexp.off_queue hq (by rwa [hcuri]) _⟩, ⟨hsame.donelist, hsame.lasttime,
      hsame.timers, fun j hj => ?_, fun j hj => ?_⟩, ?_, hcuri⟩
    · exact (congrFun hsame.reload j).trans (Function.update_of_ne hj _ _)
    · exact (congrFun hcur j).trans (Function.update_of_ne hj _ _)
    · exact (congrFun hsame.reload i).trans (Function.update_self i _ _)
  · rw [if_neg h0, if_neg h0]
    have htb : t = b := hreg.resolve_right fun hc' => h0 (by rw [← hc, if_pos hc'.1, hc'.2])
    obtain ⟨hqueue, hsame, hcur⟩ := hset.schedule (t := { s with
      reload := update s.reload i r
      count := update s.count i 0
      delay := update s.delay i c
      absTo := update s.absTo i (uint32 t + uint32 c) }) hq hi hidle rfl rfl rfl rfl hc0.1 hc0.2
    refine ⟨htb ▸ hqueue, ⟨hsame.donelist, hsame.lasttime, hsame.timers, fun j hj => ?_,
      fun j hj => ?_⟩, ?_, ?_⟩
    · exact (congrFun hsame.reload j).trans (Function.update_of_ne hj _ _)
    · exact (congrFun hcur j).trans (Function.update_of_ne hj _ _)
    · exact (congrFun hsame.reload i).trans (Function.update_self i _ _)
    · exact (congrFun hcur i).trans (Function.update_self i _ _)

/-- After `TCP_Timer_stop`, or for a timer that is in no list, `TCP_Timer_start` only schedules. -/
theorem Timed.startStopped (h : Timed s q b D lists) (hq : q ≠ 0) (hi : s.IsTimer i)
    (hs : s.Sane q) (hd : d < 2 ^ 31) (hr : 0 ≤ r) (hr' : r < 2 ^ 31)
    (hreg : t = b ∨ d ≤ 0 ∧ r = 0) :
    (∃ lists', Timed ((s.stop i q).1.startIdle i d r q (uint32 t)).1 q b
        (update D i (t + if d ≤ 0 then r else d)) lists') ∧
      Others s ((s.stop i q).1.startIdle i d r q (uint32 t)).1 i ∧
      ((s.stop i q).1.startIdle i d r q (uint32 t)).1.reload i = r ∧
      ((s.stop i q).1.startIdle i d r q (uint32 t)).1.curlist i =
        if (if d ≤ 0 then r else d) = 0 then s.donelist i else q := by
  obtain ⟨⟨lists', hstop⟩, hsame, hcur⟩ := h.stop hq hi
  have hidle : (s.stop i q).1.curlist i = 0 := by rw [hcur, Function.update_self]
  have hi' : (s.stop i q).1.IsTimer i := by rwa [IsTimer, hsame.timers]
  obtain ⟨hqueue, hothers, hreload, hcuri⟩ := hstop.startIdle hq hi' hidle
    (by rw [hsame.donelist]; exact (hs i).2) hd hr hr' hreg
  exact ⟨hqueue, (hsame.others hcur).trans hothers, hreload, by rw [hcuri, hsame.donelist]⟩

/-- What is left of a call about the timer `i`: the queue holds the new deadlines, and the
timer and its fields. -/
structure Called (s s' : Ticker) (q : ℕ) (b : ℤ) (D : ℕ → ℤ) (i : ℕ) : Prop where
  timed : ∃ lists, Timed s' q b D lists
  others : Others s s' i
  reload : 0 ≤ s'.reload i ∧ s'.reload i < 2 ^ 31

theorem Timed.start (h : Timed s q g.last g.deadline lists) (hq : q ≠ 0) (hi : s.IsTimer i)
    (hs : s.Sane q) (hd : d < 2 ^ 31) (hr' : r < 2 ^ 31) (hreg : StartRegular q s g i d r t) :
    Called s (s.start i d r q (uint32 t)).1 q g.last
        (if r < 0 then g.deadline else update g.deadline i (t + if d ≤ 0 then r else d)) i ∧
      (0 ≤ r → 0 < d → (s.start i d r q (uint32 t)).1.curlist i = q ∧
        (s.start i d r q (uint32 t)).1.reload i = r) := by
  unfold Ticker.start
  by_cases hr : r < 0
  · rw [if_pos hr, if_pos hr]
    exact ⟨⟨⟨lists, h⟩, (SameTimers.refl s).others (Function.update_eq_self i s.curlist).symm,
      (hs i).1⟩, fun hr0 => absurd hr0 (by omega)⟩
  · rw [if_neg hr, if_neg hr]
    have hr0 : 0 ≤ r := by omega
    replace hreg := hreg hr0
    have hstopped := fun hidle => h.startStopped (t := t) (d := d) hq hi hs hd hr0 hr' hidle
    by_cases hcur : s.curlist i = q
    · rw [if_pos hcur] at hreg ⊢
      simp only at hreg ⊢
      generalize int32 (s.absTo i - uint32 t) = delta at hreg ⊢
      by_cases hlonger : delta < d
      · rw [if_pos hlonger] at hreg ⊢
        obtain ⟨hd0, hedge, hnear⟩ := hreg
        have hset := h.congr (t := { s with
          reload := update s.reload i r, count := update s.count i 0 }) rfl rfl rfl fun _ _ => rfl
        have hlow : 0 ≤ s.delay i + (d - s.delay i) := by omega
        obtain ⟨hqueue, hsame, hcurs⟩ := hset.advanceActive hq hi hcur hlow (by omega)
        have hD : g.deadline i + (d - s.delay i) = t + if d ≤ 0 then r else d := by
          rw [if_neg (by omega)]
          omega
        have hreload := (congrFun hsame.reload i).trans (Function.update_self i _ _)
        refine ⟨⟨hD ▸ hqueue, ⟨hsame.donelist, hsame.lasttime, hsame.timers, fun j hj => ?_,
          fun j _ => congrFun hcurs j⟩, ?_⟩, fun _ _ => ⟨(congrFun hcurs i).trans hcur, hreload⟩⟩
        · exact (congrFun hsame.reload j).trans (Function.update_of_ne hj _ _)
        · simp only at hreload ⊢
          omega
      · rw [if_neg hlonger] at hreg ⊢
        by_cases hshorter : d < delta
        · rw [if_pos hshorter] at hreg ⊢
          obtain ⟨hqueue, hothers, hreload, hplace⟩ := hstopped hreg
          exact ⟨⟨hqueue, hothers, by rw [hreload]; exact ⟨hr0, hr'⟩⟩, fun _ hd0 =>
            ⟨hplace.trans (if_neg (by rw [if_neg (by omega)]; omega)), hreload⟩⟩
        · rw [if_neg hshorter] at hreg ⊢
          have hD : update g.deadline i (t + if d ≤ 0 then r else d) = g.deadline := by
            rw [if_neg (by omega), ← hreg.2.1, Function.update_eq_self]
          rw [hD]
          exact ⟨⟨⟨lists, h⟩, (SameTimers.refl s).others
            (Function.update_eq_self i s.curlist).symm, (hs i).1⟩, fun _ _ => ⟨hcur, hreg.2.2⟩⟩
    · rw [if_neg hcur] at hreg ⊢
      have hstop : (s.stop i q).1 = s.remove i := by
        unfold Ticker.stop
        rw [if_pos hcur]
      obtain ⟨hqueue, hothers, hreload, hplace⟩ := hstopped hreg
      rw [hstop] at hqueue hothers hreload hplace
      exact ⟨⟨hqueue, hothers, by rw [hreload]; exact ⟨hr0, hr'⟩⟩, fun _ hd0 =>
        ⟨hplace.trans (if_neg (by rw [if_neg (by omega)]; omega)), hreload⟩⟩

theorem Timed.advance (h : Timed s q g.last g.deadline lists) (hq : q ≠ 0) (hi : s.IsTimer i)
    (hs : s.Sane q) (hd : d < 2 ^ 31) (hreg : s.Regular q g (.advance i d t)) :
    Called s (s.advance i d q (uint32 t)).1 q g.last (s.due q g (.advance i d t)).deadline i := by
  rw [Regular] at hreg
  unfold Ticker.advance
  simp only [due]
  by_cases hcur : s.curlist i = q
  · rw [if_pos hcur] at hreg
    simp only [if_neg (not_not.mpr hcur), if_pos hcur]
    have hδ : 0 ≤ s.delay i := (h.coded.bounds ((h.threaded.mem q hq i).mpr ⟨hi, hcur⟩)).1
    have hlow : 0 ≤ s.delay i + d := by omega
    obtain ⟨hqueue, hsame, hcurs⟩ := h.advanceActive hq hi hcur hlow (by omega)
    exact ⟨hqueue, ⟨hsame.donelist, hsame.lasttime, hsame.timers, fun j _ => congrFun hsame.reload j,
      fun j _ => congrFun hcurs j⟩, by rw [hsame.reload]; exact (hs i).1⟩
  · rw [if_neg hcur] at hreg
    simp only [if_pos hcur, if_neg hcur]
    exact (h.start (r := 0) hq hi hs hd (by omega) fun _ => by rwa [if_neg hcur]).1

theorem start_idle (s : Ticker) (d : ℤ) (now : UInt32) (hq : q ≠ 0) (hidle : s.curlist i = 0) :
    s.start i d 0 q now = s.startIdle i d 0 q now := by
  unfold Ticker.start
  rw [if_neg (lt_irrefl 0), if_neg (by rw [hidle]; exact Ne.symm hq), remove_idle hidle]

theorem Timed.oneshotMax (h : Timed s q g.last g.deadline lists) (hq : q ≠ 0) (hi : s.IsTimer i)
    (hs : s.Sane q) (hd : d < 2 ^ 31) (hreg : s.Regular q g (.oneshotMax i d t)) :
    Called s (s.oneshotMax i d q (uint32 t)).1 q g.last
      (s.due q g (.oneshotMax i d t)).deadline i := by
  have hstop := (h.stop hq hi).2.2
  have hsame : Called s s q g.last g.deadline i :=
    ⟨⟨lists, h⟩, (SameTimers.refl s).others (Function.update_eq_self i s.curlist).symm, (hs i).1⟩
  -- the timer is started again, and a delay that is not positive lets it expire
  have hrestart : ∀ x, (d ≤ 0 ∨ t = g.last ∧ x = t + d) →
      Called s ((s.stop i q).1.start i d 0 q (uint32 t)).1 q g.last (update g.deadline i x) i := by
    intro x hx
    rw [start_idle _ _ _ hq (by rw [hstop, Function.update_self])]
    obtain ⟨⟨lists', hqueue⟩, hothers, hreload, hcur⟩ := h.startStopped (t := t) (r := 0) hq hi hs hd
      (le_refl 0) (by omega) (by rcases hx with hx | hx <;> omega)
    refine ⟨⟨lists', ?_⟩, hothers, by rw [hreload]; omega⟩
    by_cases hd0 : d ≤ 0
    · rw [if_pos hd0, if_pos rfl] at hcur
      have hoff := hqueue.off_queue hq (by rw [hcur]; exact (hs i).2) x
      rwa [Function.update_idem] at hoff
    · rw [if_neg hd0] at hqueue
      rwa [(hx.resolve_left hd0).2]
  rw [Regular] at hreg
  unfold Ticker.oneshotMax
  simp only [due]
  by_cases hcur : s.curlist i = q
  · have hdone : s.curlist i ≠ s.donelist i := hcur ▸ Ne.symm (hs i).2
    rw [if_pos hcur] at hreg
    rw [if_pos (by rw [hcur]; exact hq), if_neg hdone, if_pos hcur, if_pos hcur]
    by_cases hkeep : s.absTo i ≤ uint32 t + uint32 d
    · rw [if_pos hkeep] at hreg ⊢
      rw [min_eq_left hreg, Function.update_eq_self]
      exact hsame
    · rw [if_neg hkeep] at hreg ⊢
      exact hrestart _ (hreg.imp_right fun hc => ⟨hc.1, min_eq_right hc.2⟩)
  · rw [if_neg hcur] at hreg
    have hremove : (s.stop i q).1 = s.remove i := by
      unfold Ticker.stop
      rw [if_pos hcur]
    rw [hremove] at hrestart
    by_cases h0 : s.curlist i = 0
    · rw [remove_idle h0] at hrestart
      rw [if_neg (not_not.mpr h0), if_neg hcur, if_neg fun hc => hc.1 h0]
      exact hrestart _ ((hreg.resolve_left fun hc => hc.1 h0).symm.imp And.left fun hc => ⟨hc, rfl⟩)
    · rw [if_pos h0, if_neg hcur]
      by_cases hdone : s.curlist i = s.donelist i
      · rw [if_pos hdone, if_pos (And.intro h0 hdone), if_neg hcur, Function.update_eq_self]
        exact hsame
      · rw [if_neg hdone, if_neg hcur, if_neg fun hc => hdone hc.2]
        exact hrestart _ ((hreg.resolve_left fun hc => hdone hc.2).symm.imp And.left
          fun hc => ⟨hc, rfl⟩)

theorem Timed.stopped (h : Timed s q b D lists) (hq : q ≠ 0) (hi : s.IsTimer i) (hs : s.Sane q) :
    Called s (s.stop i q).1 q b D i := by
  obtain ⟨hqueue, hsame, hcur⟩ := h.stop hq hi
  exact ⟨hqueue, hsame.others hcur, by rw [hsame.reload]; exact (hs i).1⟩

/-! ## Runs -/

/-- A regular call about a timer meets the deadlines. -/
theorem OnTime.called (h : s.OnTime q g) (hq : q ≠ 0) (hproper : s.Proper g c)
    (hreg : s.Regular q g c) (hi : c.timer = some i) :
    Called s (s.call q c) q g.last (s.due q g c).deadline i := by
  obtain ⟨⟨lists, htimed⟩, hs, -, -⟩ := h
  have htimer := hproper.timer i hi
  cases c with
  | start j d r t =>
    obtain rfl : j = i := Option.some.inj hi
    exact (htimed.start hq htimer hs (hproper.args d (by simp [TimerCall.args])).2
      (hproper.args r (by simp [TimerCall.args])).2 hreg).1
  | stop j t =>
    obtain rfl : j = i := Option.some.inj hi
    exact htimed.stopped hq htimer hs
  | advance j d t =>
    obtain rfl : j = i := Option.some.inj hi
    exact htimed.advance hq htimer hs (hproper.args d (by simp [TimerCall.args])).2 hreg
  | oneshotMax j d t =>
    obtain rfl : j = i := Option.some.inj hi
    exact htimed.oneshotMax hq htimer hs (hproper.args d (by simp [TimerCall.args])).2 hreg
  | tick t => exact absurd hi (by simp [TimerCall.timer])

theorem OnTime.ticked (h : s.OnTime q g) (hq : q ≠ 0) (hnow : g.now ≤ t)
    (hreg : s.Regular q g (.tick t)) :
    Ticked { s with lasttime := uint32 t } (s.call q (.tick t)) q t g.deadline := by
  obtain ⟨⟨lists, htimed⟩, hs, hlast, hgnow⟩ := h
  exact tick_spec hq htimed hs hlast (hgnow.trans hnow) hreg

/-- Every call that keeps to its condition keeps the queue on time. -/
theorem OnTime.call (h : s.OnTime q g) (hq : q ≠ 0) (hproper : s.Proper g c)
    (hreg : s.Regular q g c) : (s.call q c).OnTime q (s.due q g c) := by
  cases hc : c.timer with
  | some i =>
    obtain ⟨htimed, hothers, hreload⟩ := h.called hq hproper hreg hc
    have hlast : (s.due q g c).last = g.last ∧ (s.due q g c).now = c.time := by
      cases c with
      | tick t => exact absurd hc (by simp [TimerCall.timer])
      | start j d r t => exact ⟨rfl, rfl⟩
      | stop j t => exact ⟨rfl, rfl⟩
      | advance j d t => exact ⟨rfl, rfl⟩
      | oneshotMax j d t => exact ⟨rfl, rfl⟩
    refine ⟨hlast.1 ▸ htimed, fun j => ⟨?_, ?_⟩, ?_, ?_⟩
    · by_cases hj : j = i
      · exact hj ▸ hreload
      · rw [hothers.reload j hj]
        exact (h.sane j).1
    · rw [hothers.donelist]
      exact (h.sane j).2
    · rw [hothers.lasttime, hlast.1]
      exact h.lasttime
    · rw [hlast.1, hlast.2]
      exact h.now.trans hproper.time
  | none =>
    cases c with
    | tick t =>
      have htick := h.ticked (t := t) hq hproper.time hreg
      exact ⟨htick.queue, htick.same.sane h.sane, htick.same.lasttime, le_refl t⟩
    | start j d r t => exact absurd hc (by simp [TimerCall.timer])
    | stop j t => exact absurd hc (by simp [TimerCall.timer])
    | advance j d t => exact absurd hc (by simp [TimerCall.timer])
    | oneshotMax j d t => exact absurd hc (by simp [TimerCall.timer])

theorem Initial.onTime (h : Initial s q t) (hD : g.last = t) (hnow : g.now = t) :
    s.OnTime q g where
  timed := by
    refine ⟨fun _ => [], ⟨fun a ha => ?_, fun a ha i => ?_⟩, trivial, fun i hi => ?_⟩
    · exact ⟨h.heads a, trivial, List.nodup_nil, List.not_mem_nil⟩
    · simp [h.curlist i, Ne.symm ha]
    · exact absurd hi List.not_mem_nil
  sane := h.sane
  lasttime := hD ▸ h.lasttime
  now := by rw [hD, hnow]

/-- The deadlines at the end of a run. -/
def dueRun (q : ℕ) : Ticker → Due → List TimerCall → Due
  | _, g, [] => g
  | s, g, c :: calls => dueRun q (s.call q c) (s.due q g c) calls

theorem regularRun_append {before later : List TimerCall} :
    RegularRun q s g (before ++ later) ↔
      RegularRun q s g before ∧ RegularRun q (s.run q before) (dueRun q s g before) later := by
  induction before generalizing s g with
  | nil => simp [RegularRun, run, dueRun]
  | cons c before ih =>
    have hrun : s.run q (c :: before) = (s.call q c).run q before := rfl
    simp [RegularRun, dueRun, ih, hrun, and_assoc]

theorem OnTime.run (h : s.OnTime q g) (hq : q ≠ 0) (hreg : RegularRun q s g calls) :
    (s.run q calls).OnTime q (dueRun q s g calls) := by
  induction calls generalizing s g with
  | nil => exact h
  | cons c calls ih => exact ih (h.call hq hreg.1 hreg.2.1) hreg.2.2

/-- A call about another timer. -/
theorem OnTime.call_other (h : s.OnTime q g) (hq : q ≠ 0) (hproper : s.Proper g c)
    (hreg : s.Regular q g c) (hi : c.timer = some i) (hj : j ≠ i) :
    (s.call q c).donelist = s.donelist ∧ (s.call q c).timers = s.timers ∧
      (s.call q c).reload j = s.reload j ∧ (s.call q c).curlist j = s.curlist j ∧
      (s.due q g c).deadline j = g.deadline j := by
  obtain ⟨-, hothers, -⟩ := h.called hq hproper hreg hi
  refine ⟨hothers.donelist, hothers.timers, hothers.reload j hj, hothers.curlist j hj, ?_⟩
  cases c with
  | tick t => exact absurd hi (by simp [TimerCall.timer])
  | stop k t => rfl
  | start k d r t =>
    obtain rfl : k = i := Option.some.inj hi
    simp only [due]
    by_cases hr : r < 0
    · rw [if_pos hr]
    · rw [if_neg hr, Function.update_of_ne hj]
  | advance k d t =>
    obtain rfl : k = i := Option.some.inj hi
    exact Function.update_of_ne hj _ _
  | oneshotMax k d t =>
    obtain rfl : k = i := Option.some.inj hi
    exact Function.update_of_ne hj _ _

/-- A timer that is not running stays where it is until it is called again. -/
theorem OnTime.run_idle (h : s.OnTime q g) (hq : q ≠ 0) (hreg : RegularRun q s g calls)
    (hj : s.IsTimer j) (hcur : s.curlist j ≠ q) (hother : ∀ c ∈ calls, c.timer ≠ some j) :
    (s.run q calls).curlist j = s.curlist j := by
  induction calls generalizing s g with
  | nil => rfl
  | cons c calls ih =>
    obtain ⟨hproper, hc, hrest⟩ := hreg
    have hlater : ∀ c ∈ calls, c.timer ≠ some j := fun c hc =>
      hother c (List.mem_cons_of_mem _ hc)
    have hnext := ih (h.call hq hproper hc) hrest
    cases hi : c.timer with
    | some i =>
      have hji : j ≠ i := fun hc' => hother c List.mem_cons_self (hc' ▸ hi)
      obtain ⟨-, htimers, -, hsame, -⟩ := h.call_other hq hproper hc hi hji
      exact (hnext (by rwa [IsTimer, htimers]) (by rwa [hsame]) hlater).trans hsame
    | none =>
      cases c with
      | tick t =>
        have htick := h.ticked (t := t) hq hproper.time hc
        have hsame := htick.curlist j hj
        rw [if_neg fun hc => hcur hc.1] at hsame
        exact (hnext (by rwa [IsTimer, htick.same.timers]) (by rwa [hsame]) hlater).trans hsame
      | start i d r t => exact absurd hi (by simp [TimerCall.timer])
      | stop i t => exact absurd hi (by simp [TimerCall.timer])
      | advance i d t => exact absurd hi (by simp [TimerCall.timer])
      | oneshotMax i d t => exact absurd hi (by simp [TimerCall.timer])

/-- A running one-shot timer goes to its done list with the first tick that is not before its
deadline. -/
theorem OnTime.run_oneshot (h : s.OnTime q g) (hq : q ≠ 0) (hreg : RegularRun q s g calls)
    (hj : s.IsTimer j) (hcur : s.curlist j = q) (hreload : s.reload j = 0)
    (hother : ∀ c ∈ calls, c.timer ≠ some j) :
    ((∃ T, .tick T ∈ calls ∧ g.deadline j ≤ T) → (s.run q calls).curlist j = s.donelist j) ∧
      ((∀ T, .tick T ∈ calls → T < g.deadline j) → (s.run q calls).curlist j = q) := by
  induction calls generalizing s g with
  | nil =>
    refine ⟨?_, fun _ => hcur⟩
    rintro ⟨T, hT, -⟩
    exact absurd hT List.not_mem_nil
  | cons c calls ih =>
    obtain ⟨hproper, hc, hrest⟩ := hreg
    have hlater : ∀ c ∈ calls, c.timer ≠ some j := fun c hc =>
      hother c (List.mem_cons_of_mem _ hc)
    have hnow := h.call hq hproper hc
    cases hi : c.timer with
    | some i =>
      have hji : j ≠ i := fun hc' => hother c List.mem_cons_self (hc' ▸ hi)
      obtain ⟨hdone, htimers, hsame, hcurs, hD⟩ := h.call_other hq hproper hc hi hji
      have hnext := ih hnow hrest (by rwa [IsTimer, htimers]) (by rwa [hcurs]) (by rwa [hsame]) hlater
      rw [hD, hdone] at hnext
      have htick : ∀ T, .tick T ∈ c :: calls ↔ .tick T ∈ calls := by
        intro T
        refine ⟨fun hT => ?_, List.mem_cons_of_mem c⟩
        rcases List.mem_cons.mp hT with rfl | hT
        · exact absurd hi (by simp [TimerCall.timer])
        · exact hT
      simp only [htick]
      exact hnext
    | none =>
      cases c with
      | tick t =>
        have htick := h.ticked (t := t) hq hproper.time hc
        have hj' : (s.call q (.tick t)).IsTimer j := by rwa [IsTimer, htick.same.timers]
        have hcurs := htick.curlist j hj
        by_cases hdue : g.deadline j ≤ t
        · -- its tick: from now on it is not running
          rw [if_pos ⟨hcur, hdue, hreload⟩] at hcurs
          refine ⟨fun _ => ?_, fun hT => absurd (hT t List.mem_cons_self) (by omega)⟩
          have hne : (s.call q (.tick t)).curlist j ≠ q := by
            rw [hcurs]
            exact (h.sane j).2
          exact (hnow.run_idle hq hrest hj' hne hlater).trans hcurs
        · rw [if_neg fun hc => hdue hc.2.1] at hcurs
          have hD : (s.due q g (.tick t)).deadline j = g.deadline j := by
            show nextDeadline t (g.deadline j) (s.reload j) = _
            rw [hreload, nextDeadline_oneshot]
          have hsame := congrFun htick.same.reload j
          have hnext := ih hnow hrest hj' (hcurs.trans hcur) (hsame.trans hreload) hlater
          rw [hD, htick.same.donelist] at hnext
          refine ⟨?_, fun hT => hnext.2 fun T hmem => hT T (List.mem_cons_of_mem _ hmem)⟩
          rintro ⟨T, hT, hle⟩
          refine hnext.1 ⟨T, ?_, hle⟩
          rcases List.mem_cons.mp hT with hT | hT
          · obtain rfl : T = t := by simpa using hT
            exact absurd hle hdue
          · exact hT
      | start i d r t => exact absurd hi (by simp [TimerCall.timer])
      | stop i t => exact absurd hi (by simp [TimerCall.timer])
      | advance i d t => exact absurd hi (by simp [TimerCall.timer])
      | oneshotMax i d t => exact absurd hi (by simp [TimerCall.timer])

theorem OnTime.run_fixed (h : s.OnTime q g) (hq : q ≠ 0) (hreg : RegularRun q s g calls) :
    (s.run q calls).donelist = s.donelist ∧ (s.run q calls).timers = s.timers := by
  induction calls generalizing s g with
  | nil => exact ⟨rfl, rfl⟩
  | cons c calls ih =>
    obtain ⟨hproper, hc, hrest⟩ := hreg
    obtain ⟨hdone, htimers⟩ := ih (h.call hq hproper hc) hrest
    have hcall : (s.call q c).donelist = s.donelist ∧ (s.call q c).timers = s.timers := by
      cases hi : c.timer with
      | some i =>
        have hothers := (h.called hq hproper hc hi).others
        exact ⟨hothers.donelist, hothers.timers⟩
      | none =>
        cases c with
        | tick t =>
          have hsame := (h.ticked (t := t) hq hproper.time hc).same
          exact ⟨hsame.donelist, hsame.timers⟩
        | start i d r t => exact absurd hi (by simp [TimerCall.timer])
        | stop i t => exact absurd hi (by simp [TimerCall.timer])
        | advance i d t => exact absurd hi (by simp [TimerCall.timer])
        | oneshotMax i d t => exact absurd hi (by simp [TimerCall.timer])
    exact ⟨hdone.trans hcall.1, htimers.trans hcall.2⟩

/-- In every run whose calls meet their conditions the queue is a doubly linked list with deltas
that are not negative, and a one-shot timer that is started with a delay goes to its done list
with the first tick that is not before the end of the delay, and with none before. -/
theorem timers_on_time (h : Initial s q b) (D : ℕ → ℤ) (hreg : RegularRun q s ⟨D, b, b⟩ calls) :
    (∃ lists, Lists (s.run q calls) lists ∧ ∀ i ∈ lists q, 0 ≤ (s.run q calls).delay i) ∧
      ∀ before i d t later, calls = before ++ .start i d 0 t :: later → 0 < d →
        (∀ c ∈ later, c.timer ≠ some i) →
          ((∃ T, .tick T ∈ later ∧ t + d ≤ T) → (s.run q calls).curlist i = s.donelist i) ∧
          ((∀ T, .tick T ∈ later → T < t + d) → (s.run q calls).curlist i = q) := by
  have hq := h.queue
  have hstart : s.OnTime q ⟨D, b, b⟩ := h.onTime rfl rfl
  refine ⟨?_, ?_⟩
  · obtain ⟨lists, htimed⟩ := (hstart.run hq hreg).timed
    exact ⟨lists, htimed.threaded, fun i hi => (htimed.coded.bounds hi).1⟩
  · rintro before i d t later rfl hd hother
    obtain ⟨hbefore, hproper, hc, hlater⟩ := regularRun_append.mp hreg
    have hnow := hstart.run hq hbefore
    obtain ⟨hdone, -⟩ := hstart.run_fixed hq hbefore
    obtain ⟨⟨lists, htimed⟩, hs, -, -⟩ := hnow
    have hi := hproper.timer i rfl
    obtain ⟨hcalled, hrunning⟩ := htimed.start hq hi hs
      (hproper.args d (by simp [TimerCall.args])).2 (r := 0) (by omega) hc
    obtain ⟨hcur, hreload⟩ := hrunning (le_refl 0) hd
    have hnext := (hstart.run hq hbefore).call hq hproper hc
    have hrun := hnext.run_oneshot hq hlater
      (by rw [IsTimer]; exact hcalled.others.timers ▸ hi) hcur hreload hother
    have hD : (due q (s.run q before) (dueRun q s ⟨D, b, b⟩ before) (.start i d 0 t)).deadline i =
        t + d := by
      simp only [due]
      rw [if_neg (lt_irrefl 0), Function.update_self, if_neg (by omega)]
    have hsplit : s.run q (before ++ .start i d 0 t :: later) =
        ((s.run q before).call q (.start i d 0 t)).run q later := List.foldl_append ..
    have hlist : ((s.run q before).call q (.start i d 0 t)).donelist = s.donelist :=
      hcalled.others.donelist.trans hdone
    rw [hD, hlist] at hrun
    rw [hsplit]
    exact hrun

/-- Two idle timers with a common done list, ticked last at 0. -/
def twoTimers : Ticker where
  next _ := 0
  prev _ := 0
  donelist _ := 2
  curlist _ := 0
  delay _ := 0
  absTo _ := 0
  reload _ := 0
  count _ := 0
  head _ := 0
  lasttime := 0
  timers := 2

theorem initial_twoTimers : Initial twoTimers 1 0 where
  queue := by decide
  heads _ := rfl
  curlist _ := rfl
  sane _ := ⟨⟨le_refl 0, show (0 : ℤ) < 2 ^ 31 by decide⟩, show 2 ≠ 1 by decide⟩
  lasttime := by decide

theorem timers_on_time_twoTimers :
    (twoTimers.run 1 [.start 1 10 0 0, .tick 12]).curlist 1 = twoTimers.donelist 1 := by
  have hreg : RegularRun 1 twoTimers ⟨fun _ => 0, 0, 0⟩ [.start 1 10 0 0, .tick 12] := by
    refine ⟨⟨?_, by decide, by decide⟩, fun _ => Or.inl rfl, ⟨?_, by decide, by decide⟩, ?_, trivial⟩
    · rintro i hi
      obtain rfl : 1 = i := Option.some.inj hi
      exact ⟨by decide, by decide⟩
    · exact fun i hi => absurd hi (by simp [TimerCall.timer])
    · show (12 : ℤ) - 0 < 2 ^ 32
      decide
  exact ((timers_on_time initial_twoTimers (fun _ => 0) hreg).2 [] 1 10 0 [.tick 12] rfl (by decide)
    (by simp [TimerCall.timer])).1 ⟨12, by simp, by decide⟩

/-- A timer that is started five milliseconds after the last tick expires too early, and a
running timer that is to run longer expires too late when another one comes before it. -/
theorem timers_not_on_time :
    Initial twoTimers 1 0 ∧
      ((∀ T, .tick T ∈ [TimerCall.tick 12] → T < 5 + 10) ∧
        (twoTimers.run 1 [.start 1 10 0 5, .tick 12]).curlist 1 ≠ 1) ∧
      ((∃ T, .tick T ∈ [TimerCall.tick 25] ∧ 0 + 20 ≤ T) ∧
        (twoTimers.run 1 [.start 1 10 0 0, .start 2 15 0 0, .start 2 20 0 0, .tick 25]).curlist 2 ≠
          twoTimers.donelist 2) :=
  ⟨initial_twoTimers, ⟨by simp, by decide⟩, ⟨25, by simp, by decide⟩, by decide⟩

end Ticker
end Rtcs
end Mqx
