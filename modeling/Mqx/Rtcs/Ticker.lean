import Mathlib.Data.UInt
import Mqx.Library.DList

/-!
# The timers of TCP

Model of `ticker.c`. The timers stand in memory at addresses from 1 on, one map for each
field of a `TimeQ`. A list is known by the address of its head pointer: the queue of running
timers is one, the lists of expired timers are others. Times are milliseconds.
-/

namespace Mqx
namespace Rtcs

open PointerList

/-- The timers in memory, the head pointers of their lists and the time of the last tick.
There are `timers` of them, which bounds the walks through a list. -/
structure Ticker where
  next : ℕ → ℕ
  prev : ℕ → ℕ
  donelist : ℕ → ℕ
  curlist : ℕ → ℕ
  delay : ℕ → ℤ
  absTo : ℕ → UInt32
  reload : ℕ → ℤ
  count : ℕ → UInt32
  head : ℕ → ℕ
  lasttime : UInt32
  timers : ℕ

/-- `RTCS_OK`, `RTCSERR_TCP_TIMED_OUT` and `RTCSERR_TCPIP_INVALID_ARGUMENT`. -/
inductive TimerResult where
  | ok
  | timedOut
  | invalidArgument
deriving DecidableEq

/-- Conversion to `int32_t`. -/
def int32 (x : UInt32) : ℤ := if x.toNat < 2 ^ 31 then x.toNat else (x.toNat : ℤ) - 2 ^ 32

/-- Conversion to `uint32_t`. -/
def uint32 (x : ℤ) : UInt32 := UInt32.ofNat (x % 2 ^ 32).toNat

namespace Ticker

open Function (update)

/-- The list behind a head pointer. -/
def view (s : Ticker) (a : ℕ) : DList ℕ := ⟨s.head a, s.next, s.prev⟩

def withView (s : Ticker) (a : ℕ) (d : DList ℕ) : Ticker :=
  { s with head := update s.head a d.head, next := d.next, prev := d.prev }

/-- A timer that has left its list. -/
def clearLinks (s : Ticker) (i : ℕ) : Ticker :=
  { s with next := update s.next i 0, prev := update s.prev i 0, curlist := update s.curlist i 0 }

/-- The loop of `TCP_Timer_schedule`: the neighbours of the new timer and its delta. A node
that is its own successor is logged as an error. -/
def scanQueue (s : Ticker) : ℕ → ℕ → ℕ → ℤ → ℕ × ℕ × ℤ
  | 0, last, scan, delta => (last, scan, delta)
  | n + 1, last, scan, delta =>
    if scan ≠ 0 ∧ s.delay scan ≤ delta then
      if last = scan then scanQueue s n 0 (s.next 0) delta
      else scanQueue s n scan (s.next scan) (delta - s.delay scan)
    else (last, scan, delta)

/-- The new timer `i` between its neighbours, with the delta that its successor loses. -/
def place (s : Ticker) (q last i scan : ℕ) (delta : ℤ) : Ticker :=
  let s := { s.withView q ((s.view q).insertBetween 0 last i scan) with
    delay := update s.delay i delta
    curlist := update s.curlist i q }
  if scan ≠ 0 then { s with delay := update s.delay scan (s.delay scan - delta) } else s

/-- `TCP_Timer_schedule`. -/
def schedule (s : Ticker) (i q : ℕ) : Ticker :=
  let s := { s with curlist := update s.curlist i 0 }
  let (last, scan, delta) := s.scanQueue s.timers 0 (s.head q) (s.delay i)
  s.place q last i scan delta

/-- `TCP_Timer_expire`. -/
def expire (s : Ticker) (i : ℕ) : Ticker :=
  let s := { s with count := update s.count i (s.count i + 1) }
  let dlist := s.donelist i
  if dlist ≠ 0 then
    { s.withView dlist ((s.view dlist).insertBetween 0 0 i (s.head dlist)) with
      curlist := update s.curlist i dlist }
  else s.clearLinks i

/-- `TCP_Timer_remove`. A timer without a predecessor that is not the head is logged as an
error, and the head stays. -/
def remove (s : Ticker) (i : ℕ) : Ticker :=
  let a := s.curlist i
  if a = 0 then s
  else
    let d := (s.view a).cut 0 i
    let d := if s.prev i = 0 ∧ i ≠ s.head a then { d with head := s.head a } else d
    (s.withView a d).clearLinks i

/-- A running timer leaves the queue, and its successor gets its delta. -/
def unqueue (s : Ticker) (i q : ℕ) : Ticker :=
  let n := s.next i
  { s.withView q ((s.view q).cut 0 i) with
    delay := if n ≠ 0 then update s.delay n (s.delay n + s.delay i) else s.delay }

/-- `TCP_Timer_stop`. -/
def stop (s : Ticker) (i q : ℕ) : Ticker × TimerResult :=
  if s.curlist i ≠ q then (s.remove i, .timedOut) else ((s.unqueue i q).clearLinks i, .ok)

/-- The loop of `TCP_Timer_advance`: the new neighbours and the delta. -/
def advanceScan (s : Ticker) : ℕ → ℕ → ℤ → ℕ × ℕ × ℤ
  | 0, p, delta => (p, s.next p, delta)
  | n + 1, p, delta =>
    if s.next p = 0 then (p, 0, delta)
    else if delta < s.delay (s.next p) then (p, s.next p, delta)
    else advanceScan s n (s.next p) (delta - s.delay (s.next p))

/-- `TCP_Timer_advance` of a running timer. -/
def advanceActive (s : Ticker) (i : ℕ) (delta : ℤ) (q : ℕ) : Ticker :=
  let n := s.next i
  if n = 0 then
    { s with
      delay := update s.delay i (s.delay i + delta)
      absTo := update s.absTo i (s.absTo i + uint32 delta) }
  else if delta ≤ s.delay n then
    { s with
      delay := update (update s.delay n (s.delay n - delta)) i (s.delay i + delta)
      absTo := update s.absTo i (s.absTo i + uint32 delta) }
  else
    let s' := s.unqueue i q
    let (p, n, delta) := s'.advanceScan s.timers n (delta - s.delay n)
    let s' := s'.place q p i n delta
    { s' with absTo := update s'.absTo i (s'.absTo p + uint32 delta) }

/-- The end of `TCP_Timer_start`, where the timer is in no list. -/
def startIdle (s : Ticker) (i : ℕ) (delay reload : ℤ) (q : ℕ) (now : UInt32) :
    Ticker × TimerResult :=
  let s := { s with reload := update s.reload i reload, count := update s.count i 0 }
  let delay := if delay ≤ 0 then reload else delay
  if delay = 0 then (s.expire i, .timedOut)
  else
    let s := { s with
      delay := update s.delay i delay
      absTo := update s.absTo i (now + uint32 delay) }
    (s.schedule i q, .ok)

/-- `TCP_Timer_start` at the time `now`. -/
def start (s : Ticker) (i : ℕ) (delay reload : ℤ) (q : ℕ) (now : UInt32) : Ticker × TimerResult :=
  if reload < 0 then (s, .invalidArgument)
  else if s.curlist i = q then
    let delta := int32 (s.absTo i - now)
    if delta < delay then
      let s := { s with reload := update s.reload i reload, count := update s.count i 0 }
      (s.advanceActive i (delay - s.delay i) q, .ok)
    else if delay < delta then (s.stop i q).1.startIdle i delay reload q now
    else (s, .ok)
  else (s.remove i).startIdle i delay reload q now

/-- `TCP_Timer_advance`. -/
def advance (s : Ticker) (i : ℕ) (delta : ℤ) (q : ℕ) (now : UInt32) : Ticker × TimerResult :=
  if s.curlist i ≠ q then s.start i delta 0 q now else (s.advanceActive i delta q, .ok)

/-- `TCP_Timer_oneshot_max`. -/
def oneshotMax (s : Ticker) (i : ℕ) (delay : ℤ) (q : ℕ) (now : UInt32) : Ticker × TimerResult :=
  if s.curlist i ≠ 0 then
    if s.curlist i = s.donelist i then (s, .timedOut)
    else if s.curlist i = q then
      if s.absTo i ≤ now + uint32 delay then (s, .ok) else (s.stop i q).1.start i delay 0 q now
    else (s.remove i).start i delay 0 q now
  else s.start i delay 0 q now

/-- The first timer of the queue leaves it. -/
def popHead (s : Ticker) (q : ℕ) : Ticker :=
  let h := s.head q
  let n := s.next h
  let s := { s with head := update s.head q n }
  let s := if n ≠ 0 then { s with prev := update s.prev n 0 } else s
  s.clearLinks h

/-- What becomes of a timer that has run down: it expires or, when it is cyclic, is scheduled
again. -/
def fire (s : Ticker) (h q : ℕ) (now : UInt32) : Ticker :=
  if s.reload h < 0 then s
  else if 0 < s.reload h then
    let s := { s with
      count := update s.count h (s.count h + 1)
      delay := update s.delay h (s.reload h)
      absTo := update s.absTo h (now + uint32 (s.reload h)) }
    s.schedule h q
  else s.expire h

/-- The loop of `TCP_Tick_server`, with whether a timer has run down. -/
def tickLoop (q : ℕ) (now : UInt32) : ℕ → Ticker → UInt32 → Bool → Ticker × Bool
  | 0, s, _, reply => (s, reply)
  | n + 1, s, elapsed, reply =>
    let h := s.head q
    if h = 0 then (s, reply)
    else if elapsed < uint32 (s.delay h) then
      ({ s with delay := update s.delay h (int32 (uint32 (s.delay h) - elapsed)) }, reply)
    else tickLoop q now n ((s.popHead q).fire h q now) (elapsed - uint32 (s.delay h)) true

/-- `TCP_Tick_server` up to the call of `TCP_Process_signal`, with whether that call is made
and the time until the next event. A timer runs down at most once a millisecond. -/
def tick (s : Ticker) (q : ℕ) (now : UInt32) : Ticker × Bool × UInt32 :=
  let elapsed := now - s.lasttime
  let s := { s with lasttime := now }
  let (s, reply) := tickLoop q now ((elapsed.toNat + 1) * s.timers) s elapsed false
  let left := s.absTo (s.head q) - now
  (s, reply, if s.head q = 0 then 0 else if int32 left ≤ 0 then 1 else left)

end Ticker

end Rtcs
end Mqx
