import Mathlib.Data.List.Nodup
import Mathlib.Data.UInt
import Mathlib.Tactic.Common
import Mqx.Library.DeltaQueue

/-!
# Events of the stack

Model of `timer.c`. The list from `TCPIP_Event_head` on is a list of events, each with its `TIME`.
It stands for the pointers as long as no event is added that is in the list already. A handler is
what it calls and what it returns, and a run goes from one of these to the next.
-/

namespace Mqx
namespace Rtcs
namespace TcpipEvent

open DeltaQueue
open Function (update)

variable {Event : Type*} [DecidableEq Event]

/-- `TCPIP_Event_head` with the fields `NEXT`, and the fields `TIME`. -/
structure Timer (Event : Type*) where
  head : List Event
  time : Event → UInt32

/-- The loop of `TCPIP_Event_add`. -/
def addLoop (event : Event) : List Event → (Event → UInt32) → Timer Event
  | [], time => ⟨[event], time⟩
  | i :: l, time =>
    if time i > time event then ⟨event :: i :: l, update time i (time i - time event)⟩
    else
      let t := addLoop event l (update time event (time event - time i))
      ⟨i :: t.head, t.time⟩

/-- `TCPIP_Event_add`. -/
def tcpipEventAdd (t : Timer Event) (event : Event) : Timer Event :=
  addLoop event t.head t.time

/-- The successor of a cancelled event takes over its `TIME`. -/
def passOn (t : UInt32) (time : Event → UInt32) : List Event → Event → UInt32
  | [] => time
  | next :: _ => update time next (time next + t)

/-- The loop of `TCPIP_Event_cancel`. -/
def cancelLoop (event : Event) : List Event → (Event → UInt32) → Timer Event
  | [], time => ⟨[], time⟩
  | i :: l, time =>
    if i = event then ⟨l, passOn (time event) time l⟩
    else
      let t := cancelLoop event l time
      ⟨i :: t.head, t.time⟩

/-- `TCPIP_Event_cancel`. -/
def tcpipEventCancel (t : Timer Event) (event : Event) : Timer Event :=
  cancelLoop event t.head t.time

/-- The loop of `TCPIP_Event_expire`. -/
def expireLoop (event : Event) (field : Event → UInt32) (time : UInt32) : List Event → UInt32
  | [] => 0
  | i :: l =>
    if i = event then time + field i else expireLoop event field (time + field i) l

/-- `TCPIP_Event_expire`. -/
def tcpipEventExpire (t : Timer Event) (event : Event) : UInt32 :=
  expireLoop event t.time 0 t.head

/-- Outside of `TCPIP_Event_time`, at the head of its loop, or in the handler of an event. -/
inductive Phase (Event : Type*)
  | idle
  | loop (time : UInt32)
  | handler (time : UInt32) (event : Event)

/-- `time` of `TCPIP_Event_time`. -/
def Phase.rest : Phase Event → UInt32
  | .idle => 0
  | .loop time | .handler time _ => time

structure System (Event : Type*) where
  timer : Timer Event
  phase : Phase Event

/-- What happens, seen from outside: the calls with their results, the handlers that start, and
what they return. `again` is a handler that sets `TIME` and returns `TRUE`. -/
inductive Act (Event : Type*)
  | add (event : Event) (time : UInt32)
  | cancel (event : Event)
  | expire (event : Event) (result : UInt32)
  | time (elapsed : UInt32)
  | fire (event : Event)
  | again (event : Event) (time : UInt32)
  | done (event : Event)
  | finish (result : UInt32)

/-- The code between two calls of handlers, or in a handler. -/
def step (s : System Event) : Act Event → Option (System Event)
  | .add event time =>
    let t : Timer Event := ⟨s.timer.head, update s.timer.time event time⟩
    match s.phase with
    | .loop _ => none
    | phase => some ⟨tcpipEventAdd t event, phase⟩
  | .cancel event =>
    match s.phase with
    | .loop _ => none
    | phase => some ⟨tcpipEventCancel s.timer event, phase⟩
  | .expire event result =>
    match s.phase with
    | .loop _ => none
    | _ => if tcpipEventExpire s.timer event = result then some s else none
  | .time elapsed =>
    match s.phase with
    | .idle => some ⟨s.timer, .loop elapsed⟩
    | _ => none
  | .fire event =>
    match s.phase, s.timer.head with
    | .loop time, i :: l =>
      if i = event ∧ ¬s.timer.time i > time then
        some ⟨⟨l, s.timer.time⟩, .handler (time - s.timer.time i) i⟩
      else none
    | _, _ => none
  | .again event new =>
    match s.phase with
    | .handler time i =>
      let t : Timer Event := ⟨s.timer.head, update s.timer.time i (new + time)⟩
      if i = event then some ⟨tcpipEventAdd t i, .loop time⟩ else none
    | _ => none
  | .done event =>
    match s.phase with
    | .handler time i => if i = event then some ⟨s.timer, .loop time⟩ else none
    | _ => none
  | .finish result =>
    match s.phase, s.timer.head with
    | .loop _, [] => if result = 0 then some ⟨s.timer, .idle⟩ else none
    | .loop time, i :: l =>
      if s.timer.time i > time ∧ result = s.timer.time i - time then
        some ⟨⟨i :: l, update s.timer.time i (s.timer.time i - time)⟩, .idle⟩
      else none
    | _, _ => none

def run (s : System Event) (acts : List (Act Event)) : Option (System Event) :=
  acts.foldlM step s

/-- `TCPIP_Event_init`. The fields `TIME` may hold anything. -/
def tcpipEventInit (time : Event → UInt32) : System Event := ⟨⟨[], time⟩, .idle⟩

/-! ## What the time service is for -/

/-- The elapsed time in all, and when the pending events are due. -/
structure Agenda (Event : Type*) where
  elapsed : ℕ
  due : Event → Option ℕ

/-- An event fires when it is due, and no call ends with an event that is due. -/
inductive Agenda.Step : Agenda Event → Act Event → Agenda Event → Prop
  | add (a : Agenda Event) (event : Event) (time : UInt32) :
      Step a (.add event time)
        { a with due := update a.due event (some (a.elapsed + time.toNat)) }
  | cancel (a : Agenda Event) (event : Event) :
      Step a (.cancel event) { a with due := update a.due event none }
  | expire (a : Agenda Event) (event : Event) (result : UInt32)
      (h : result.toNat = (a.due event).getD a.elapsed - a.elapsed) :
      Step a (.expire event result) a
  | time (a : Agenda Event) (elapsed : UInt32) :
      Step a (.time elapsed) { a with elapsed := a.elapsed + elapsed.toNat }
  | fire (a : Agenda Event) (event : Event) (d : ℕ) (hdue : a.due event = some d)
      (h : d ≤ a.elapsed) : Step a (.fire event) { a with due := update a.due event none }
  | again (a : Agenda Event) (event : Event) (time : UInt32) :
      Step a (.again event time)
        { a with due := update a.due event (some (a.elapsed + time.toNat)) }
  | done (a : Agenda Event) (event : Event) : Step a (.done event) a
  | finish (a : Agenda Event) (result : UInt32)
      (hlate : ∀ event d, a.due event = some d → a.elapsed < d)
      (hnone : result = 0 ↔ ∀ event, a.due event = none)
      (hnext : ∀ event d, a.due event = some d → a.elapsed + result.toNat ≤ d)
      (hreach : result ≠ 0 → ∃ event, a.due event = some (a.elapsed + result.toNat)) :
      Step a (.finish result) a

inductive Agenda.Run : Agenda Event → List (Act Event) → Agenda Event → Prop
  | nil (a : Agenda Event) : Run a [] a
  | cons {a a₁ a₂ : Agenda Event} {act : Act Event} {acts : List (Act Event)}
      (hstep : Agenda.Step a act a₁) (hrun : Run a₁ acts a₂) : Run a (act :: acts) a₂

/-! ## The lists -/

/-- The fields `TIME` as differences. -/
def delta (time : Event → UInt32) (i : Event) : ℤ := (time i).toNat

variable {time : Event → UInt32} {D : Event → ℤ} {b : ℤ} {l : List Event} {event i : Event}
  {t : UInt32}

@[simp] theorem delta_update_self : delta (update time i t) i = t.toNat := by
  simp [delta]

theorem delta_update_of_ne {j : Event} (h : j ≠ i) : delta (update time i t) j = delta time j := by
  simp [delta, h]

theorem toNat_sub {x y : UInt32} (h : x ≤ y) : ((y - x).toNat : ℤ) = y.toNat - x.toNat := by
  rw [UInt32.toNat_sub_of_le _ _ h]
  exact Nat.cast_sub (UInt32.le_iff_toNat_le.1 h)

theorem addLoop_perm : (addLoop event l time).head.Perm (event :: l) := by
  induction l generalizing time with
  | nil => exact .refl _
  | cons i l ih =>
    rw [addLoop]
    split_ifs
    · exact .refl _
    · exact (List.Perm.cons i ih).trans (.swap event i l)

theorem addLoop_time_of_notMem (hi : i ≠ event) (hl : i ∉ l) :
    (addLoop event l time).time i = time i := by
  induction l generalizing time with
  | nil => rfl
  | cons j l ih =>
    rw [List.mem_cons, not_or] at hl
    rw [addLoop]
    split_ifs
    · exact Function.update_of_ne hl.1 _ _
    · exact (ih hl.2).trans (Function.update_of_ne hi _ _)

/-- The new event goes in at its deadline. -/
theorem addLoop_coded (h : Coded (delta time) D b l) (hl : l.Nodup) (hevent : event ∉ l)
    (hD : D event = b + (time event).toNat) :
    Coded (delta (addLoop event l time).time) D b (addLoop event l time).head := by
  induction l generalizing b time with
  | nil =>
    refine ⟨by omega, ?_, trivial⟩
    rw [addLoop, hD]
    simp [delta]
  | cons i l ih =>
    obtain ⟨hb, hi, hrest⟩ := h
    rw [List.nodup_cons] at hl
    rw [List.mem_cons, not_or] at hevent
    have hi' : ((time i).toNat : ℤ) = D i - b := hi
    rw [addLoop]
    split_ifs with hlt
    · have hle : time event ≤ time i := UInt32.le_of_lt hlt
      have hnat : (time event).toNat ≤ (time i).toNat := UInt32.le_iff_toNat_le.1 hle
      refine ⟨by omega, ?_, by omega, ?_, ?_⟩
      · rw [delta_update_of_ne hevent.1, hD]
        simp [delta]
      · rw [delta_update_self, toNat_sub hle]
        omega
      · exact hrest.congr (fun j hj => delta_update_of_ne fun hc => hl.1 (hc ▸ hj))
          fun _ _ => rfl
    · have hle : time i ≤ time event := UInt32.not_lt.1 hlt
      have hnat : (time i).toNat ≤ (time event).toNat := UInt32.le_iff_toNat_le.1 hle
      have htail : Coded (delta (update time event (time event - time i))) D (D i) l :=
        hrest.congr (fun j hj => delta_update_of_ne fun hc => hevent.2 (hc ▸ hj)) fun _ _ => rfl
      refine ⟨hb, ?_, ih htail hl.2 hevent.2 ?_⟩
      · rw [delta, addLoop_time_of_notMem (Ne.symm hevent.1) hl.1,
          Function.update_of_ne (Ne.symm hevent.1)]
        exact hi
      · rw [Function.update_self, toNat_sub hle, hD]
        omega

theorem cancelLoop_of_notMem (h : event ∉ l) : cancelLoop event l time = ⟨l, time⟩ := by
  induction l with
  | nil => rfl
  | cons i l ih =>
    rw [List.mem_cons, not_or] at h
    rw [cancelLoop, if_neg (Ne.symm h.1), ih h.2]

theorem cancelLoop_head : (cancelLoop event l time).head = l.erase event := by
  induction l with
  | nil => rfl
  | cons i l ih =>
    rw [cancelLoop]
    by_cases hi : i = event
    · subst hi
      rw [if_pos rfl, List.erase_cons_head]
    · rw [if_neg hi, List.erase_cons_tail (by simpa using hi)]
      exact congrArg (i :: ·) ih

theorem cancelLoop_time_of_notMem (h : i ∉ l) : (cancelLoop event l time).time i = time i := by
  induction l with
  | nil => rfl
  | cons j l ih =>
    rw [List.mem_cons, not_or] at h
    rw [cancelLoop]
    split_ifs
    · cases l with
      | nil => rfl
      | cons next l => exact Function.update_of_ne (List.ne_of_not_mem_cons h.2) _ _
    · exact ih h.2

/-- All the events of a list are due less than a whole turn of the clock after a base. -/
def Near (D : Event → ℤ) (b : ℤ) (l : List Event) : Prop := ∀ i ∈ l, D i - b < 2 ^ 32

/-- A cancelled event leaves its difference to its successor. -/
theorem cancelLoop_coded (h : Coded (delta time) D b l) (hl : l.Nodup) (hnear : Near D b l) :
    Coded (delta (cancelLoop event l time).time) D b (cancelLoop event l time).head := by
  induction l generalizing b with
  | nil => trivial
  | cons i l ih =>
    obtain ⟨hb, hi, hrest⟩ := h
    rw [List.nodup_cons] at hl
    have hi' : ((time i).toNat : ℤ) = D i - b := hi
    rw [cancelLoop]
    by_cases hevent : i = event
    · subst hevent
      rw [if_pos rfl]
      cases l with
      | nil => trivial
      | cons next l =>
        obtain ⟨hnext, hdelta, htail⟩ := hrest
        have hdelta' : ((time next).toNat : ℤ) = D next - D i := hdelta
        have hnear' := hnear next (by simp)
        have hnext' : next ∉ l := (List.nodup_cons.1 hl.2).1
        refine ⟨by omega, ?_, ?_⟩
        · refine delta_update_self.trans ?_
          rw [UInt32.toNat_add]
          omega
        · exact htail.congr (fun j hj => delta_update_of_ne fun hc => hnext' (hc ▸ hj))
            fun _ _ => rfl
    · rw [if_neg hevent]
      refine ⟨hb, ?_, ih hrest hl.2 ?_⟩
      · rw [delta, cancelLoop_time_of_notMem hl.1]
        exact hi
      · intro j hj
        have hj' := hnear j (List.mem_cons_of_mem i hj)
        omega

/-- The differences up to a pending event add up to its deadline. -/
theorem expireLoop_eq {base : ℤ} (h : Coded (delta time) D b l) (hnear : Near D base l)
    (hevent : event ∈ l) (ht : (t.toNat : ℤ) = b - base) :
    ((expireLoop event time t l).toNat : ℤ) = D event - base := by
  induction l generalizing b t with
  | nil => exact absurd hevent List.not_mem_nil
  | cons i l ih =>
    obtain ⟨hb, hi, hrest⟩ := h
    have hi' : ((time i).toNat : ℤ) = D i - b := hi
    have hnear' := hnear i List.mem_cons_self
    have hsum : ((t + time i).toNat : ℤ) = D i - base := by
      rw [UInt32.toNat_add]
      omega
    rw [expireLoop]
    by_cases heq : i = event
    · rw [if_pos heq, ← heq]
      exact hsum
    · rw [if_neg heq]
      refine ih hrest (fun j hj => hnear j (List.mem_cons_of_mem i hj)) ?_ hsum
      exact (List.mem_cons.1 hevent).resolve_left (Ne.symm heq)

theorem expireLoop_of_notMem (h : event ∉ l) : expireLoop event time t l = 0 := by
  induction l generalizing t with
  | nil => rfl
  | cons i l ih =>
    rw [List.mem_cons, not_or] at h
    rw [expireLoop, if_neg (Ne.symm h.1), ih h.2]

/-! ## The queue follows the agenda -/

variable {s s' : System Event} {a : Agenda Event} {act : Act Event}

/-- The deadlines of the pending events. -/
def Agenda.deadline (a : Agenda Event) (i : Event) : ℤ := ((a.due i).getD 0 : ℕ)

/-- The time up to which the code has come. -/
def base (phase : Phase Event) (a : Agenda Event) : ℤ := a.elapsed - phase.rest.toNat

structure Follows (s : System Event) (a : Agenda Event) : Prop where
  nodup : s.timer.head.Nodup
  mem : ∀ i, i ∈ s.timer.head ↔ (a.due i).isSome
  coded : Coded (delta s.timer.time) a.deadline (base s.phase a) s.timer.head
  near : Near a.deadline (base s.phase a) s.timer.head

/-- What the code needs at a step: an event is added, or comes again, only while it is not in the
list. It is added, or asked when it expires, at a moment when nothing is left of the elapsed
time, and what is left when it comes again does not overflow its `TIME`. -/
def Meets (s : System Event) : Act Event → Prop
  | .add event _ => event ∉ s.timer.head ∧ s.phase.rest = 0
  | .expire event _ => event ∉ s.timer.head ∨ s.phase.rest = 0
  | .again event time => event ∉ s.timer.head ∧ time.toNat + s.phase.rest.toNat < 2 ^ 32
  | _ => True

omit [DecidableEq Event] in
theorem Agenda.deadline_of_due {d : ℕ} (h : a.due i = some d) : a.deadline i = d := by
  rw [Agenda.deadline, h, Option.getD_some]

theorem deadline_of_ne {j : Event} {x : Option ℕ} (h : j ≠ i) :
    ({ a with due := update a.due i x } : Agenda Event).deadline j = a.deadline j := by
  simp only [Agenda.deadline, Function.update_of_ne h]

/-- An event that was not pending comes in. -/
theorem Follows.add {t : UInt32} {d : ℕ} (h : Follows s a) (hevent : event ∉ s.timer.head)
    (hphase : base s'.phase { a with due := update a.due event (some d) } = base s.phase a)
    (ht : (t.toNat : ℤ) = d - base s.phase a)
    (htimer : s'.timer =
      tcpipEventAdd ⟨s.timer.head, update s.timer.time event t⟩ event) :
    Follows s' { a with due := update a.due event (some d) } := by
  have hdeadline : ({ a with due := update a.due event (some d) } : Agenda Event).deadline event =
      d := Agenda.deadline_of_due (Function.update_self ..)
  have hother : ∀ j ∈ s.timer.head, j ≠ event := fun j hj hc => hevent (hc ▸ hj)
  have hperm : s'.timer.head.Perm (event :: s.timer.head) := by
    rw [htimer]
    exact addLoop_perm
  refine ⟨?_, ?_, ?_, ?_⟩
  · rw [hperm.nodup_iff, List.nodup_cons]
    exact ⟨hevent, h.nodup⟩
  · intro i
    rw [hperm.mem_iff, List.mem_cons]
    by_cases hi : i = event
    · simp [hi]
    · simp [hi, h.mem]
  · rw [htimer, hphase]
    apply addLoop_coded _ h.nodup hevent
    · change _ = base s.phase a + ((update s.timer.time event t event).toNat : ℤ)
      rw [hdeadline, Function.update_self, ht]
      omega
    · exact h.coded.congr (fun j hj => delta_update_of_ne (hother j hj))
        fun j hj => deadline_of_ne (hother j hj)
  · intro j hj
    rw [hphase]
    rcases List.mem_cons.1 (hperm.mem_iff.1 hj) with rfl | hj
    · have hlt : t.toNat < 2 ^ 32 := t.toNat_lt
      rw [hdeadline]
      omega
    · rw [deadline_of_ne (hother j hj)]
      exact h.near j hj

/-- An event that is no longer pending goes out. -/
theorem Follows.cancel (h : Follows s a) :
    Follows ⟨tcpipEventCancel s.timer event, s.phase⟩
      { a with due := update a.due event none } := by
  have hhead : (tcpipEventCancel s.timer event).head = s.timer.head.erase event := cancelLoop_head
  have hother : ∀ j ∈ s.timer.head.erase event, j ≠ event := fun j hj =>
    (h.nodup.mem_erase_iff.1 hj).1
  refine ⟨?_, ?_, ?_, ?_⟩
  · rw [hhead]
    exact h.nodup.erase event
  · intro i
    rw [hhead, h.nodup.mem_erase_iff]
    by_cases hi : i = event
    · simp [hi]
    · simp [hi, h.mem]
  · refine (cancelLoop_coded h.coded h.nodup h.near).congr (fun _ _ => rfl) ?_
    intro j hj
    exact deadline_of_ne (hother j (hhead ▸ hj))
  · intro j hj
    rw [hhead] at hj
    rw [deadline_of_ne (hother j hj)]
    exact h.near j (List.mem_of_mem_erase hj)

/-- The head goes out at its deadline. -/
theorem Follows.fire {t : UInt32} (h : Follows s a) (hphase : s.phase = .loop t)
    (hhead : s.timer.head = i :: l) (hle : s.timer.time i ≤ t) :
    Follows ⟨⟨l, s.timer.time⟩, .handler (t - s.timer.time i) i⟩
        { a with due := update a.due i none } ∧
      ∃ d, a.due i = some d ∧ d ≤ a.elapsed := by
  obtain ⟨hnodup, hmem, hcoded, hnear⟩ := h
  simp only [hhead] at hnodup hmem hcoded hnear
  obtain ⟨hb, hi, hrest⟩ := hcoded
  rw [List.nodup_cons] at hnodup
  have hi' : ((s.timer.time i).toNat : ℤ) = a.deadline i - base s.phase a := hi
  have hle' : (s.timer.time i).toNat ≤ t.toNat := UInt32.le_iff_toNat_le.1 hle
  obtain ⟨d, hd⟩ := Option.isSome_iff_exists.1 ((hmem i).1 List.mem_cons_self)
  have hdeadline := Agenda.deadline_of_due hd
  have hbase : base s.phase a = a.elapsed - t.toNat := by rw [base, hphase]; rfl
  have hnew : base (.handler (t - s.timer.time i) i) { a with due := update a.due i none } =
      a.deadline i := by
    change (a.elapsed : ℤ) - ((t - s.timer.time i).toNat : ℤ) = _
    rw [toNat_sub hle]
    omega
  have hother : ∀ j ∈ l, j ≠ i := fun j hj hc => hnodup.1 (hc ▸ hj)
  refine ⟨⟨hnodup.2, ?_, ?_, ?_⟩, d, hd, by omega⟩
  · intro j
    by_cases hj : j = i
    · simp [hj, hnodup.1]
    · simp [hj, ← hmem]
  · rw [hnew]
    exact hrest.congr (fun _ _ => rfl) fun j hj => deadline_of_ne (hother j hj)
  · intro j hj
    have hj' := hnear j (List.mem_cons_of_mem i hj)
    rw [hnew, deadline_of_ne (hother j hj)]
    omega

/-- The head keeps what is left until its deadline. -/
theorem Follows.finish {t : UInt32} (h : Follows s a) (hphase : s.phase = .loop t)
    (hhead : s.timer.head = i :: l) (hlt : s.timer.time i > t) :
    Follows ⟨⟨i :: l, update s.timer.time i (s.timer.time i - t)⟩, .idle⟩ a := by
  obtain ⟨hnodup, hmem, hcoded, hnear⟩ := h
  simp only [hhead] at hnodup hmem hcoded hnear
  have hnotMem := (List.nodup_cons.1 hnodup).1
  obtain ⟨hb, hi, hrest⟩ := hcoded
  have hle : t ≤ s.timer.time i := UInt32.le_of_lt hlt
  have hle' : t.toNat ≤ (s.timer.time i).toNat := UInt32.le_iff_toNat_le.1 hle
  have hi' : ((s.timer.time i).toNat : ℤ) = a.deadline i - base s.phase a := hi
  have hbase : base s.phase a = a.elapsed - t.toNat := by rw [base, hphase]; rfl
  have hnew : base .idle a = a.elapsed := sub_zero _
  refine ⟨hnodup, hmem, ?_, ?_⟩
  · rw [hnew]
    refine ⟨by omega, ?_, hrest.congr (fun j hj => delta_update_of_ne fun hc =>
      hnotMem (hc ▸ hj)) fun _ _ => rfl⟩
    rw [delta_update_self, toNat_sub hle]
    omega
  · intro j hj
    have hj' := hnear j hj
    rw [hnew]
    omega

theorem step_add {t : UInt32} (h : step s (.add event t) = some s') :
    s' = ⟨tcpipEventAdd ⟨s.timer.head, update s.timer.time event t⟩ event, s.phase⟩ := by
  cases hphase : s.phase <;> simp_all [step]

theorem step_cancel (h : step s (.cancel event) = some s') :
    s' = ⟨tcpipEventCancel s.timer event, s.phase⟩ := by
  cases hphase : s.phase <;> simp_all [step]

theorem step_expire {t : UInt32} (h : step s (.expire event t) = some s') :
    s' = s ∧ tcpipEventExpire s.timer event = t := by
  cases hphase : s.phase with
  | loop => simp [step, hphase] at h
  | idle | handler =>
    simp only [step, hphase] at h
    split_ifs at h with ht
    cases h
    exact ⟨rfl, ht⟩

theorem step_time {t : UInt32} (h : step s (.time t) = some s') :
    s.phase = .idle ∧ s' = ⟨s.timer, .loop t⟩ := by
  cases hphase : s.phase <;> simp_all [step]

theorem step_fire (h : step s (.fire event) = some s') :
    ∃ t l, s.phase = .loop t ∧ s.timer.head = event :: l ∧ s.timer.time event ≤ t ∧
      s' = ⟨⟨l, s.timer.time⟩, .handler (t - s.timer.time event) event⟩ := by
  cases hphase : s.phase with
  | idle | handler => simp [step, hphase] at h
  | loop t =>
    cases hhead : s.timer.head with
    | nil => simp [step, hphase, hhead] at h
    | cons i l =>
      simp only [step, hphase, hhead] at h
      split_ifs at h with hfire
      obtain ⟨rfl, hle⟩ := hfire
      cases h
      exact ⟨t, l, rfl, rfl, UInt32.not_lt.1 hle, rfl⟩

theorem step_again {t : UInt32} (h : step s (.again event t) = some s') :
    ∃ rest, s.phase = .handler rest event ∧
      s' = ⟨tcpipEventAdd ⟨s.timer.head, update s.timer.time event (t + rest)⟩ event,
        .loop rest⟩ := by
  cases hphase : s.phase with
  | idle | loop => simp [step, hphase] at h
  | handler rest i =>
    simp only [step, hphase] at h
    split_ifs at h with hi
    subst hi
    cases h
    exact ⟨rest, rfl, rfl⟩

theorem step_done (h : step s (.done event) = some s') :
    ∃ rest, s.phase = .handler rest event ∧ s' = ⟨s.timer, .loop rest⟩ := by
  cases hphase : s.phase with
  | idle | loop => simp [step, hphase] at h
  | handler rest i =>
    simp only [step, hphase] at h
    split_ifs at h with hi
    subst hi
    cases h
    exact ⟨rest, rfl, rfl⟩

theorem step_finish {t : UInt32} (h : step s (.finish t) = some s') :
    ∃ rest, s.phase = .loop rest ∧
      (s.timer.head = [] ∧ t = 0 ∧ s' = ⟨s.timer, .idle⟩ ∨
        ∃ i l, s.timer.head = i :: l ∧ s.timer.time i > rest ∧ t = s.timer.time i - rest ∧
          s' = ⟨⟨i :: l, update s.timer.time i (s.timer.time i - rest)⟩, .idle⟩) := by
  cases hphase : s.phase with
  | idle | handler => simp [step, hphase] at h
  | loop rest =>
    cases hhead : s.timer.head with
    | nil =>
      simp only [step, hphase, hhead] at h
      split_ifs at h with ht
      cases h
      exact ⟨rest, rfl, .inl ⟨rfl, ht, rfl⟩⟩
    | cons i l =>
      simp only [step, hphase, hhead] at h
      split_ifs at h with ht
      cases h
      exact ⟨rest, rfl, .inr ⟨i, l, rfl, ht.1, ht.2, rfl⟩⟩

omit [DecidableEq Event] in
/-- The code goes on from the same point, with the same events. -/
theorem Follows.goOn {a' : Agenda Event} {phase : Phase Event} (h : Follows s a)
    (hdue : a'.due = a.due) (hbase : base phase a' = base s.phase a) :
    Follows ⟨s.timer, phase⟩ a' := by
  have hdeadline : a'.deadline = a.deadline := by
    unfold Agenda.deadline
    rw [hdue]
  refine ⟨h.nodup, ?_, ?_, ?_⟩
  · rw [hdue]
    exact h.mem
  · rw [hdeadline, hbase]
    exact h.coded
  · rw [hdeadline, hbase]
    exact h.near

omit [DecidableEq Event] in
theorem Follows.due_of_mem (h : Follows s a) (hi : i ∈ s.timer.head) :
    ∃ d, a.due i = some d ∧ a.deadline i = d := by
  obtain ⟨d, hd⟩ := Option.isSome_iff_exists.1 ((h.mem i).1 hi)
  exact ⟨d, hd, Agenda.deadline_of_due hd⟩

omit [DecidableEq Event] in
theorem Follows.due_none (h : Follows s a) (hi : i ∉ s.timer.head) : a.due i = none := by
  rwa [h.mem, Bool.not_eq_true, Option.isSome_eq_false_iff, Option.isNone_iff_eq_none] at hi

/-- A call asks when an event expires at a moment when no elapsed time is left. -/
theorem Follows.expire (h : Follows s a) (hrest : event ∉ s.timer.head ∨ s.phase.rest = 0) :
    (tcpipEventExpire s.timer event).toNat = (a.due event).getD a.elapsed - a.elapsed := by
  by_cases hevent : event ∈ s.timer.head
  · have hbase : base s.phase a = a.elapsed := by
      rw [base, hrest.resolve_left (not_not.2 hevent)]
      exact sub_zero _
    obtain ⟨d, hd, hdeadline⟩ := h.due_of_mem hevent
    have hexpire := @expireLoop_eq _ _ _ _ _ _ event 0 _ h.coded h.near hevent (sub_self _).symm
    rw [hdeadline, hbase] at hexpire
    rw [hd, Option.getD_some, tcpipEventExpire]
    omega
  · rw [h.due_none hevent, Option.getD_none, Nat.sub_self, tcpipEventExpire,
      expireLoop_of_notMem hevent]
    rfl

/-- A call that ends before the head is due ends before all events are. -/
theorem Follows.finish_step {t : UInt32} (h : Follows s a) (hphase : s.phase = .loop t)
    (hhead : s.timer.head = i :: l) (hlt : s.timer.time i > t) :
    a.Step (.finish (s.timer.time i - t)) a := by
  have hle : t ≤ s.timer.time i := UInt32.le_of_lt hlt
  have hlt' : t.toNat < (s.timer.time i).toNat := UInt32.lt_iff_toNat_lt.1 hlt
  have hresult : (s.timer.time i - t).toNat = (s.timer.time i).toNat - t.toNat :=
    UInt32.toNat_sub_of_le _ _ hle
  have hbase : base s.phase a = a.elapsed - t.toNat := by rw [base, hphase]; rfl
  obtain ⟨d, hd, hdeadline⟩ := h.due_of_mem (hhead ▸ List.mem_cons_self : i ∈ s.timer.head)
  have hcoded := h.coded
  rw [hhead] at hcoded
  obtain ⟨hb, hi, hrest⟩ := hcoded
  have hi' : ((s.timer.time i).toNat : ℤ) = a.deadline i - base s.phase a := hi
  -- The head is the first one that is due, after what is left of its `TIME`.
  have hfirst : d = a.elapsed + (s.timer.time i - t).toNat := by omega
  have hall : ∀ event d', a.due event = some d' → d ≤ d' := by
    intro event d' hd'
    have hmem : event ∈ i :: l := hhead ▸ (h.mem event).2 (hd' ▸ rfl)
    have hdeadline' := Agenda.deadline_of_due hd'
    rcases List.mem_cons.1 hmem with rfl | hmem
    · omega
    · have hle' := hrest.le hmem
      omega
  refine .finish a _ ?_ ?_ ?_ ?_
  · intro event d' hd'
    have hle' := hall event d' hd'
    omega
  · have hne : s.timer.time i - t ≠ 0 := by
      intro hzero
      rw [hzero] at hresult
      change 0 = _ at hresult
      omega
    simp only [hne, false_iff, not_forall]
    exact ⟨i, hd ▸ Option.some_ne_none d⟩
  · intro event d' hd'
    exact hfirst ▸ hall event d' hd'
  · intro _
    exact ⟨i, hfirst ▸ hd⟩

theorem Follows.finish_empty (h : Follows s a) (hhead : s.timer.head = []) :
    a.Step (.finish 0) a ∧ Follows ⟨s.timer, .idle⟩ a := by
  have hnone : ∀ event, a.due event = none := fun event => h.due_none (by simp [hhead])
  refine ⟨.finish a 0 ?_ ?_ ?_ ?_, h.nodup, h.mem, ?_, ?_⟩
  · simp [hnone]
  · simp [hnone]
  · simp [hnone]
  · simp
  · simp [hhead]
  · simp [Near, hhead]

/-- One step of the code is a step of the agenda. -/
theorem Follows.step (h : Follows s a) (hmeets : Meets s act) (hstep : step s act = some s') :
    ∃ a', a.Step act a' ∧ Follows s' a' := by
  cases act with
  | add event t =>
    obtain rfl := step_add hstep
    have hbase : base s.phase a = a.elapsed := by
      rw [base, hmeets.2]
      exact sub_zero _
    refine ⟨_, .add a event t, @Follows.add _ _ _ _ _ _ t _ h hmeets.1 rfl ?_ rfl⟩
    rw [hbase]
    omega
  | cancel event =>
    obtain rfl := step_cancel hstep
    exact ⟨_, .cancel a event, h.cancel⟩
  | expire event t =>
    obtain ⟨rfl, rfl⟩ := step_expire hstep
    exact ⟨a, .expire a event _ (h.expire hmeets), h⟩
  | time t =>
    obtain ⟨hphase, rfl⟩ := step_time hstep
    refine ⟨_, .time a t, h.goOn rfl ?_⟩
    rw [hphase]
    change ((a.elapsed + t.toNat : ℕ) : ℤ) - t.toNat = a.elapsed - 0
    omega
  | fire event =>
    obtain ⟨t, l, hphase, hhead, hle, rfl⟩ := step_fire hstep
    obtain ⟨hfollows, d, hdue, hd⟩ := h.fire hphase hhead hle
    exact ⟨_, .fire a event d hdue hd, hfollows⟩
  | again event t =>
    obtain ⟨rest, hphase, rfl⟩ := step_again hstep
    have hfits : t.toNat + rest.toNat < 2 ^ 32 := by
      have hmeets := hmeets.2
      rwa [hphase] at hmeets
    refine ⟨_, .again a event t, @Follows.add _ _ _ _ _ _ (t + rest) _ h hmeets.1 ?_ ?_ rfl⟩
    · rw [hphase]
      rfl
    · rw [hphase, UInt32.toNat_add, Nat.mod_eq_of_lt hfits]
      change _ = ((a.elapsed + t.toNat : ℕ) : ℤ) - (a.elapsed - rest.toNat)
      omega
  | done event =>
    obtain ⟨rest, hphase, rfl⟩ := step_done hstep
    refine ⟨a, .done a event, h.goOn rfl ?_⟩
    rw [hphase]
    rfl
  | finish t =>
    obtain ⟨rest, hphase, ⟨hhead, rfl, rfl⟩ | ⟨i, l, hhead, hlt, rfl, rfl⟩⟩ := step_finish hstep
    · exact ⟨a, h.finish_empty hhead⟩
    · exact ⟨a, h.finish_step hphase hhead hlt, h.finish hphase hhead hlt⟩

/-! ## Runs -/

/-- Every step of a run meets the condition. -/
def MeetsAll (s : System Event) : List (Act Event) → Prop
  | [] => True
  | act :: acts =>
    Meets s act ∧
      match step s act with
      | some s' => MeetsAll s' acts
      | none => True

variable {acts : List (Act Event)}

theorem Follows.run (h : Follows s a) (hmeets : MeetsAll s acts) (hrun : run s acts = some s') :
    ∃ a', a.Run acts a' ∧ Follows s' a' := by
  induction acts generalizing s a with
  | nil =>
    cases hrun
    exact ⟨a, .nil a, h⟩
  | cons act acts ih =>
    rw [TcpipEvent.run, List.foldlM_cons] at hrun
    obtain ⟨s₁, hstep, hrest⟩ := Option.bind_eq_some_iff.1 hrun
    obtain ⟨hmeets, hmeets'⟩ := hmeets
    obtain ⟨a₁, hact, h₁⟩ := h.step hmeets hstep
    rw [hstep] at hmeets'
    obtain ⟨a', hrun', h'⟩ := ih h₁ hmeets' hrest
    exact ⟨a', .cons hact hrun', h'⟩

/-- Nothing is pending at the start. -/
def Agenda.empty : Agenda Event := ⟨0, fun _ => none⟩

omit [DecidableEq Event] in
theorem follows_init (time : Event → UInt32) : Follows (tcpipEventInit time) Agenda.empty := by
  refine ⟨List.nodup_nil, ?_, trivial, ?_⟩
  · simp [tcpipEventInit, Agenda.empty]
  · simp [Near, tcpipEventInit]

/-- Every run of the code whose steps meet the condition is one of the agenda: each event fires
once, in the first call that reaches its deadline, and the list holds the pending ones. -/
theorem run_on_time (time : Event → UInt32) (acts : List (Act Event)) (s : System Event)
    (hmeets : MeetsAll (tcpipEventInit time) acts) (hrun : run (tcpipEventInit time) acts = some s) :
    ∃ a, Agenda.empty.Run acts a ∧ ∀ event, event ∈ s.timer.head ↔ (a.due event).isSome := by
  obtain ⟨a, hagenda, h⟩ := (follows_init time).run hmeets hrun
  exact ⟨a, hagenda, h.mem⟩

/-- An event that comes again after a call that overshoots. -/
theorem run_on_time_again :
    let acts : List (Act Unit) :=
      [.add () 5, .time 7, .fire (), .again () 1, .finish 1, .time 1, .fire (), .done (), .finish 0]
    ∃ a, Agenda.empty.Run acts a ∧ ∀ event, event ∈ [] ↔ (a.due event).isSome :=
  run_on_time (fun _ => 0) _ ⟨⟨[], fun _ => 1⟩, .idle⟩
    ⟨⟨List.not_mem_nil, rfl⟩, trivial, trivial, ⟨List.not_mem_nil, by decide⟩, trivial, trivial,
      trivial, trivial, trivial, trivial⟩ rfl

/-- A handler adds an event with a delay of three while five are left of the elapsed time: the
event fires in the same call. -/
theorem added_in_handler_fires_early :
    let acts : List (Act Bool) :=
      [.add false 5, .time 10, .fire false, .add true 3, .done false, .fire true]
    (∃ s, run (tcpipEventInit fun _ => 0) acts = some s) ∧ ¬∃ a, Agenda.empty.Run acts a := by
  refine ⟨⟨_, rfl⟩, ?_⟩
  rintro ⟨a, _ | ⟨⟨⟩, _ | ⟨⟨⟩, _ | ⟨_ | _, _ | ⟨⟨⟩, _ | ⟨⟨⟩, _ | ⟨hfire, -⟩⟩⟩⟩⟩⟩⟩
  cases hfire with
  | fire _ d hdue hd =>
    have hthirteen : (13 : ℕ) = d := Option.some.inj hdue
    have hten : d ≤ 10 := hd
    omega

end TcpipEvent
end Rtcs
end Mqx
