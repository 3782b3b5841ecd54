import Mqx.Library.Ring
import Mathlib.Data.List.Sort

/-!
# Lightweight timers

Periodic queues of timers and the interrupt handler that runs them. The handler walks
along a queue from the timer it processed last, and timer functions may add and cancel
timers while it does: the model has a step for every point where they can.

A queue is named by the address of its header, `TIMERS`, and a timer by its own address;
all of them share the links. `TIMER_FUNCTION` and `PARAMETER` of a timer only say what is
called.
-/

namespace Mqx.Lw

open PointerList

/-- `LWTIMER_PERIOD_STRUCT`, the links apart; `size` is the size of `TIMERS`. -/
structure LwtimerPeriod where
  period : ℕ
  expiry : ℕ
  wait : ℕ
  timerPtr : ℕ
  size : ℕ
  valid : Bool

/-- Where the interrupt handler is: outside, about to visit the queues `rest`, about to
look at the element `cur` of the queue `q`, or in the function of the timer `t`. -/
inductive IsrPhase
  | idle
  | visit (rest : List ℕ)
  | scan (q cur : ℕ) (rest : List ℕ)
  | running (q t : ℕ) (rest : List ℕ)

/-- The timers and their queues. -/
structure LwtimerData where
  links : Links ℕ
  queue : ℕ → LwtimerPeriod
  lwtimers : List ℕ
  relativeTicks : ℕ → ℕ
  valid : ℕ → Bool
  periodPtr : ℕ → ℕ
  phase : IsrPhase

inductive LwtimerStatus
  | ok
  | lwtimerInvalid
  | invalidParameter
  deriving DecidableEq, Repr

/-- What is seen of a step. -/
inductive TimerEvent
  | internal
  | call (q t : ℕ)
  | endTick (q : ℕ)
  | endPeriod (q : ℕ)
  | add (q t ticks : ℕ)
  | cancel (t : ℕ)
  deriving DecidableEq, Repr

namespace LwtimerData

variable (s : LwtimerData)

/-- The handler stores to the fields of a queue and goes on. -/
def setQueue (q : ℕ) (p : LwtimerPeriod) (phase : IsrPhase) : LwtimerData :=
  { s with queue := Function.update s.queue q p, phase := phase }

/-- `_lwtimer_create_periodic_queue`. -/
def lwtimerCreatePeriodicQueue (q period waitTicks : ℕ) : LwtimerData :=
  { s with
    queue := Function.update s.queue q ⟨period, 0, waitTicks, q, 0, true⟩
    links := ⟨Function.update s.links.next q q, Function.update s.links.prev q q⟩
    lwtimers := s.lwtimers ++ [q] }

/-- The loop of `_lwtimer_add_timer_to_queue`: the element to insert behind. -/
def insertPoint (ticks : ℕ) : ℕ → ℕ → ℕ
  | 0, qe => qe
  | i + 1, qe =>
    if s.relativeTicks (s.links.next qe) ≥ ticks then s.links.prev (s.links.next qe)
    else insertPoint ticks i (s.links.next qe)

def lwtimerAddTimerToQueue (q t ticks : ℕ) : LwtimerStatus × LwtimerData :=
  if (s.queue q).valid = false then (.lwtimerInvalid, s)
  else if ticks ≥ (s.queue q).period then (.invalidParameter, s)
  else
    let p := s.queue q
    (.ok, { s with
      periodPtr := Function.update s.periodPtr t q
      relativeTicks := Function.update s.relativeTicks t ticks
      valid := Function.update s.valid t true
      links := s.links.link (s.insertPoint ticks p.size q) t
      queue := Function.update s.queue q { p with size := (p.size + 1) % 2 ^ 16 } })

def lwtimerCancelTimer (t : ℕ) : LwtimerStatus × LwtimerData :=
  if s.valid t = false then (.lwtimerInvalid, s)
  else if (s.queue (s.periodPtr t)).valid = false then (.lwtimerInvalid, s)
  else
    let p := s.queue (s.periodPtr t)
    (.ok, { s with
      valid := Function.update s.valid t false
      links := s.links.unlink t
      queue := Function.update s.queue (s.periodPtr t) { p with
        timerPtr := if t = p.timerPtr then s.links.prev t else p.timerPtr
        size := (p.size + (2 ^ 16 - 1)) % 2 ^ 16 } })

/-- `_lwtimer_isr_internal`, from one point where a timer function can be called, or has
returned, to the next. -/
def isrStep : TimerEvent × LwtimerData :=
  match s.phase with
  | .idle => (.internal, { s with phase := .visit s.lwtimers })
  | .visit [] => (.internal, { s with phase := .idle })
  | .visit (q :: rest) =>
    let p := s.queue q
    if p.wait ≠ 0 then
      (.internal, s.setQueue q { p with wait := p.wait - 1 } (.visit rest))
    else (.internal, { s with phase := .scan q (s.links.next p.timerPtr) rest })
  | .scan q cur rest =>
    let p := s.queue q
    if cur ≠ q ∧ ¬s.relativeTicks cur > p.expiry then
      (.call q cur, s.setQueue q { p with timerPtr := cur } (.running q cur rest))
    else if p.expiry + 1 = p.period then
      (.endPeriod q, s.setQueue q { p with expiry := 0, timerPtr := q } (.visit rest))
    else (.endTick q, s.setQueue q { p with expiry := p.expiry + 1 } (.visit rest))
  | .running q t rest => (.internal, { s with phase := .scan q (s.links.next t) rest })

/-- Other code can run: between two ticks, or in a timer function. -/
def Interruptible : Prop :=
  match s.phase with
  | .idle | .running _ _ _ => True
  | _ => False

instance : Decidable s.Interruptible := by
  unfold Interruptible
  split <;> infer_instance

/-- The handler is at work on the queue. -/
def Processing (q : ℕ) : Prop :=
  match s.phase with
  | .scan q' _ _ | .running q' _ _ => q' = q
  | _ => False

instance (q : ℕ) : Decidable (s.Processing q) := by
  unfold Processing
  split <;> infer_instance

/-- The first offset of the queue that is still to come in its period. -/
def nextOffset (q : ℕ) : ℕ :=
  if s.Processing q then (s.queue q).expiry + 1 else (s.queue q).expiry

/-- The timer whose function runs has been cancelled meanwhile, and the handler goes on
along its old link. -/
def OnOldLink (q t : ℕ) : Prop := (∃ rest, s.phase = .running q t rest) ∧ s.valid t = false

/-- When a timer can be added: it is not registered, the queue is not full, an offset that
is over in this period finds a processed timer behind it, and the old link of a cancelled
timer stays what it was. -/
structure AddFits (q t ticks : ℕ) : Prop where
  fresh : s.valid t = false
  timer : t ∉ s.lwtimers
  room : (s.queue q).size + 1 < 2 ^ 16
  late : ticks < s.nextOffset q →
    (s.queue q).timerPtr ≠ q ∧ ticks ≤ s.relativeTicks (s.queue q).timerPtr
  oldLink : ∀ q' t', s.OnOldLink q' t' → t = s.links.next t' → (s.queue q').expiry < ticks
  again : ∀ q' t', s.OnOldLink q' t' → t = t' → q = q' ∧ (s.queue q').expiry < ticks ∧
    (s.links.next t' = q' ∨ (s.queue q').expiry < s.relativeTicks (s.links.next t'))

/-- When a timer can be cancelled: it is not the one due next on the old link of a
cancelled timer. -/
def CancelFits (t : ℕ) : Prop :=
  ∀ q' t', s.OnOldLink q' t' → t = s.links.next t' → (s.queue q').expiry < s.relativeTicks t

end LwtimerData

/-- What can be done next: the handler goes on, or a call is made. -/
inductive TimerAction
  | isr
  | add (q t ticks : ℕ)
  | cancel (t : ℕ)
  deriving DecidableEq, Repr

namespace LwtimerData

variable (s : LwtimerData)

def act : TimerAction → TimerEvent × LwtimerData
  | .isr => s.isrStep
  | .add q t ticks => (.add q t ticks, (s.lwtimerAddTimerToQueue q t ticks).2)
  | .cancel t => (.cancel t, (s.lwtimerCancelTimer t).2)

/-- Calls are made between ticks or from inside timer functions. -/
def Allowed : TimerAction → Prop
  | .isr => True
  | _ => s.Interruptible

/-- A call that is accepted finds the queue as `AddFits` or `CancelFits` says. -/
def Fits : TimerAction → Prop
  | .isr => True
  | .add q t ticks => (s.lwtimerAddTimerToQueue q t ticks).1 = .ok → s.AddFits q t ticks
  | .cancel t => (s.lwtimerCancelTimer t).1 = .ok → s.CancelFits t

end LwtimerData

/-- Steps that meet a condition, with what is seen of them. -/
inductive TimerRun (cond : LwtimerData → TimerAction → Prop) :
    LwtimerData → List TimerEvent → LwtimerData → Prop
  | nil (s : LwtimerData) : TimerRun cond s [] s
  | cons {s s' : LwtimerData} {l : List TimerEvent} (a : TimerAction) :
      s.Allowed a → cond s a → TimerRun cond (s.act a).2 l s' →
      TimerRun cond s ((s.act a).1 :: l) s'

/-- The periodic queues are created and no timer is registered yet. -/
inductive LwtimerReady : LwtimerData → Prop
  | boot (s : LwtimerData) : s.lwtimers = [] → (∀ q, (s.queue q).valid = false) →
      (∀ t, s.valid t = false) → s.phase = .idle → LwtimerReady s
  | create {s : LwtimerData} (q period waitTicks : ℕ) : LwtimerReady s → q ∉ s.lwtimers →
      1 ≤ period → LwtimerReady (s.lwtimerCreatePeriodicQueue q period waitTicks)

namespace LwtimerData

variable (s : LwtimerData)

/-- A function that is called now is called at the offset of its timer. -/
def CalledOnTime : Prop :=
  ∀ q t, s.isrStep.1 = .call q t → (s.queue q).expiry = s.relativeTicks t

/-- A period of the queue begins. -/
def PeriodBegins (q : ℕ) : Prop := (s.queue q).expiry = 0 ∧ ¬s.Processing q

end LwtimerData

/-- In every period of a run from here on that `t` is registered in from its beginning to
its end, the function of `t` is called once. -/
def CalledOnce (cond : LwtimerData → TimerAction → Prop) (s : LwtimerData) : Prop :=
  ∀ q t l s', s.PeriodBegins q → s.valid t = true → s.periodPtr t = q →
    TimerRun cond s (l ++ [.endPeriod q]) s' → .endPeriod q ∉ l → .cancel t ∉ l →
    l.count (.call q t) = 1

end Mqx.Lw
