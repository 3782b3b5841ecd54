import Mqx.Sched.Priority
import Mqx.Lw.Lwmsgq

/-!
# Waiting tasks of message queues and the scheduler

`_lwmsgq_send` stores `STATE` once, before its loop. A writer that is woken and finds the
queue full again goes back to the queue of writers as a task that looks ready, and a
change of its priority then puts it on a ready queue as well. As long as no writer comes
back to a full queue, every waiting task has the `STATE` of its queue.
-/

namespace Mqx.Lw

open Mqx.Sched

/-- `STATE` of the waiting tasks says what they wait for; writers have no timeout. -/
structure WaitKinds (queues : Set ℕ) (k : KernelData) : Prop where
  writer : ∀ q ∈ queues, ∀ t ∈ k.queues (waitingWriters q),
    (k.td t).state = .lwmsgqWriteBlocked ∧ (k.td t).onTimeoutQ = false
  reader : ∀ q ∈ queues, ∀ t ∈ k.queues (waitingReaders q), (k.td t).state = .lwmsgqReadBlocked

/-- The structures of different queues do not overlap. -/
def Apart (queues : Set ℕ) : Prop :=
  ∀ q ∈ queues, ∀ q' ∈ queues, q ≠ q' → q + sizeofLwmsgq ≤ q' ∨ q' + sizeofLwmsgq ≤ q

theorem Apart.readers_ne_writers {queues : Set ℕ} (h : Apart queues) {q q' : ℕ} (hq : q ∈ queues)
    (hq' : q' ∈ queues) : waitingReaders q ≠ waitingWriters q' := by
  unfold waitingReaders waitingWriters
  rcases eq_or_ne q q' with rfl | hne
  · omega
  · have hapart := h q hq q' hq' hne
    unfold sizeofLwmsgq at hapart
    omega

namespace WaitKinds

variable {queues : Set ℕ} {k k' : KernelData}

/-- Tasks leave queues; those that stay are as they were. -/
theorem of_sub (w : WaitKinds queues k) (hq : ∀ q, ∀ t ∈ k'.queues q, t ∈ k.queues q)
    (hs : ∀ q, ∀ t ∈ k'.queues q, (k'.td t).state = (k.td t).state ∧
      ((k.td t).onTimeoutQ = false → (k'.td t).onTimeoutQ = false)) : WaitKinds queues k' := by
  constructor
  · intro q hqs t ht
    obtain ⟨hstate, hout⟩ := w.writer q hqs t (hq _ t ht)
    obtain ⟨hsame, hon⟩ := hs _ t ht
    exact ⟨hsame.trans hstate, hon hout⟩
  · intro q hqs t ht
    exact (hs _ t ht).1.trans (w.reader q hqs t (hq _ t ht))

/-- A task on a queue is released. -/
theorem activate (w : WaitKinds queues k) (i : KernelInv k) {q t : ℕ} (ht : t ∈ k.queues q) :
    WaitKinds queues (k.activate q t) := by
  have hleft : ∀ q', ∀ u ∈ (k.activate q t).queues q', u ∈ k.queues q' ∧ u ≠ t := by
    intro q' u hu
    rw [KernelData.activate_queues, Function.update_apply] at hu
    split_ifs at hu with hq
    · rw [(i.wait.nodup q).mem_erase_iff] at hu
      exact ⟨hq ▸ hu.2, hu.1⟩
    · refine ⟨hu, ?_⟩
      rintro rfl
      exact hq (i.eq_of_mem_queue hu ht)
  apply w.of_sub
  · exact fun q' u hu => (hleft q' u hu).1
  · intro q' u hu
    rw [KernelData.activate_td_of_ne _ _ (hleft q' u hu).2]
    exact ⟨rfl, fun h => h⟩

/-- The active task goes to wait as a reader. -/
theorem waitReader (w : WaitKinds queues k) (ha : Apart queues) {t q : ℕ} (hq : q ∈ queues)
    (hnot : ∀ q', t ∉ k.queues q') (fifo : Bool) (timeout : Option ℕ) :
    WaitKinds queues (k.waitFor fifo t .lwmsgqReadBlocked (waitingReaders q) timeout) := by
  have hold : ∀ q', ∀ u ∈ k.queues q',
      (k.waitFor fifo t .lwmsgqReadBlocked (waitingReaders q) timeout).td u = k.td u := by
    intro q' u hu
    apply KernelData.waitFor_td_of_ne
    rintro rfl
    exact hnot q' hu
  constructor
  · intro q' hq' u hu
    rw [KernelData.waitFor_queues, Function.update_of_ne (ha.readers_ne_writers hq hq').symm] at hu
    rw [hold _ u hu]
    exact w.writer q' hq' u hu
  · intro q' hq' u hu
    rw [KernelData.waitFor_queues, Function.update_apply] at hu
    split_ifs at hu with hqq
    · rcases List.mem_append.mp hu with hu | hu
      · rw [hold _ u hu]
        exact w.reader q hq u hu
      · rw [List.mem_singleton] at hu
        subst hu
        rw [KernelData.waitFor_td_self]
    · rw [hold _ u hu]
      exact w.reader q' hq' u hu

/-- The active task goes to wait as a writer. -/
theorem waitWriter (w : WaitKinds queues k) (ha : Apart queues) {t q : ℕ} (hq : q ∈ queues)
    (hnot : ∀ q', t ∉ k.queues q') (ho : (k.td t).onTimeoutQ = false) :
    WaitKinds queues (k.waitOn t .lwmsgqWriteBlocked (waitingWriters q)) := by
  have hqueues : (k.waitOn t .lwmsgqWriteBlocked (waitingWriters q)).queues =
      Function.update k.queues (waitingWriters q) (k.queues (waitingWriters q) ++ [t]) := rfl
  have hold : ∀ q', ∀ u ∈ k.queues q',
      (k.waitOn t .lwmsgqWriteBlocked (waitingWriters q)).td u = k.td u := by
    intro q' u hu
    apply KernelData.waitOn_td_of_ne
    rintro rfl
    exact hnot q' hu
  constructor
  · intro q' hq' u hu
    rw [hqueues, Function.update_apply] at hu
    split_ifs at hu with hqq
    · rcases List.mem_append.mp hu with hu | hu
      · rw [hold _ u hu]
        exact w.writer q hq u hu
      · rw [List.mem_singleton] at hu
        subst hu
        rw [KernelData.waitOn_td_self]
        exact ⟨rfl, ho⟩
    · rw [hold _ u hu]
      exact w.writer q' hq' u hu
  · intro q' hq' u hu
    rw [hqueues, Function.update_of_ne (ha.readers_ne_writers hq' hq)] at hu
    rw [hold _ u hu]
    exact w.reader q' hq' u hu

end WaitKinds

/-- A writer without a timeout is woken like any other waiting task. -/
theorem wakeWriter_eq_activate {k : KernelData} {q t : ℕ} (h : (k.td t).onTimeoutQ = false) :
    wakeWriter k q t = k.activate q t := by
  have hsame : (k.queueRemove q t).timeDequeue t = k.queueRemove q t := by
    unfold KernelData.timeDequeue
    simp [h]
  unfold wakeWriter KernelData.activate
  simp only [hsame]

/-! ## Runs -/

/-- `_sched_set_priority_internal`, by any task or component. -/
def MsgqSys.setPriority (c : MsgqSys) (t newPriority : ℕ) : MsgqSys :=
  { c with lw := { c.lw with k := c.lw.k.schedSetPriorityInternal t newPriority } }

/-- A woken writer comes back to a full queue. -/
inductive FindsFull : MsgqSys → MsgqSys → Prop
  | mk {c : MsgqSys} {q : ℕ} {message : ℕ → Word} {flags : SendFlags} :
      c.call c.lw.k.activePtr = some (.send q message flags) → (c.lw.lwmsgq q).IsFull →
      FindsFull c (c.resumeSend q message flags).2

theorem FindsFull.call_ne_none {c c' : MsgqSys} (h : FindsFull c c') :
    c.call c.lw.k.activePtr ≠ none := by
  cases h with
  | mk hcall _ => simp [hcall]

/-- Calls on message queues, ticks and changes of priority, each followed by the
dispatcher. -/
inductive SchedStep (fifo : Bool) (queues : Set ℕ) : MsgqSys → MsgqSys → Prop
  | op {c c' : MsgqSys} (u p : ℕ) : MsgqOp fifo queues c c' → u ∈ c'.lw.k.readyQ p →
      SchedStep fifo queues c (c'.dispatch u)
  | setPriority {c : MsgqSys} (t newPriority u p : ℕ) :
      u ∈ (c.setPriority t newPriority).lw.k.readyQ p →
      SchedStep fifo queues c ((c.setPriority t newPriority).dispatch u)

/-- The same, where no writer comes back to a full queue. -/
inductive RoomStep (fifo : Bool) (queues : Set ℕ) : MsgqSys → MsgqSys → Prop
  | op {c c' : MsgqSys} (u p : ℕ) : MsgqOp fifo queues c c' → ¬FindsFull c c' →
      u ∈ c'.lw.k.readyQ p → RoomStep fifo queues c (c'.dispatch u)
  | setPriority {c : MsgqSys} (t newPriority u p : ℕ) :
      u ∈ (c.setPriority t newPriority).lw.k.readyQ p →
      RoomStep fifo queues c ((c.setPriority t newPriority).dispatch u)

/-- The kernel between two steps. -/
structure SchedInv (queues : Set ℕ) (c : MsgqSys) : Prop where
  running : Running c.lw.k
  kinds : WaitKinds queues c.lw.k

namespace SchedInv

variable {queues : Set ℕ} {c c' : MsgqSys} {q : ℕ}

theorem notMem (i : SchedInv queues c) (q : ℕ) : c.lw.k.activePtr ∉ c.lw.k.queues q :=
  i.running.notMem_queue q

/-- `_task_block` of the active task. -/
theorem taskBlock {k : KernelData} (r : Running k) (w : WaitKinds queues k) :
    KernelInv (taskBlock k) ∧ WaitKinds queues (taskBlock k) := by
  constructor
  · apply r.inv.block r.active
    · rfl
    · exact r.onTimeoutQ
  · apply w.of_sub
    · exact fun _ _ ht => ht
    · intro q' t ht
      have hne : t ≠ k.activePtr := by
        rintro rfl
        exact r.notMem_queue q' ht
      have htd : (Mqx.Lw.taskBlock k).td t = k.td t := Function.update_of_ne hne _ _
      rw [htd]
      exact ⟨rfl, fun h => h⟩

/-- A woken reader leaves the active task running. -/
theorem wakeFirstReader (i : SchedInv queues c) (q : ℕ) :
    Running (wakeFirstReader c.lw.k q) ∧ WaitKinds queues (wakeFirstReader c.lw.k q) := by
  unfold Mqx.Lw.wakeFirstReader
  cases hqueue : c.lw.k.queues (waitingReaders q) with
  | nil => exact ⟨i.running, i.kinds⟩
  | cons t l =>
    have ht : t ∈ c.lw.k.queues (waitingReaders q) := by
      rw [hqueue]
      exact List.mem_cons_self
    exact ⟨i.running.activate ht, i.kinds.activate i.running.inv ht⟩

theorem put (i : SchedInv queues c) (message : ℕ → Word) (flags : SendFlags) :
    KernelInv (c.put q message flags).lw.k ∧ WaitKinds queues (c.put q message flags).lw.k := by
  obtain ⟨hrun, hkinds⟩ := i.wakeFirstReader q
  have hput : (c.put q message flags).lw.k = if flags.blockOnSend then
      Mqx.Lw.taskBlock (Mqx.Lw.wakeFirstReader c.lw.k q)
    else Mqx.Lw.wakeFirstReader c.lw.k q := rfl
  rw [hput]
  split_ifs with hb
  · exact taskBlock hrun hkinds
  · exact ⟨hrun.inv, hkinds⟩

theorem take (i : SchedInv queues c) (hq : q ∈ queues) :
    KernelInv (c.take q).lw.k ∧ WaitKinds queues (c.take q).lw.k := by
  have htake : (c.take q).lw.k = wakeFirstWriter c.lw.k q := rfl
  rw [htake, wakeFirstWriter]
  cases hqueue : c.lw.k.queues (waitingWriters q) with
  | nil => exact ⟨i.running.inv, i.kinds⟩
  | cons t l =>
    have ht : t ∈ c.lw.k.queues (waitingWriters q) := by
      rw [hqueue]
      exact List.mem_cons_self
    simp only
    rw [wakeWriter_eq_activate (i.kinds.writer q hq t ht).2]
    exact ⟨i.running.inv.activate ht, i.kinds.activate i.running.inv ht⟩

theorem waitReader (i : SchedInv queues c) (ha : Apart queues) (hq : q ∈ queues) (fifo : Bool)
    (timeout : Option ℕ) :
    KernelInv (c.lw.k.waitFor fifo c.lw.k.activePtr .lwmsgqReadBlocked (waitingReaders q) timeout) ∧
    WaitKinds queues
      (c.lw.k.waitFor fifo c.lw.k.activePtr .lwmsgqReadBlocked (waitingReaders q) timeout) :=
  ⟨i.running.inv.waitFor i.running.active rfl _ timeout fifo,
    i.kinds.waitReader ha hq i.notMem fifo timeout⟩

theorem waitWriter (i : SchedInv queues c) (ha : Apart queues) (hq : q ∈ queues) :
    KernelInv (c.lw.k.waitOn c.lw.k.activePtr .lwmsgqWriteBlocked (waitingWriters q)) ∧
    WaitKinds queues (c.lw.k.waitOn c.lw.k.activePtr .lwmsgqWriteBlocked (waitingWriters q)) :=
  ⟨i.running.inv.waitOn i.running.active rfl _,
    i.kinds.waitWriter ha hq i.notMem i.running.onTimeoutQ⟩

theorem op {fifo : Bool} (i : SchedInv queues c) (ha : Apart queues)
    (h : MsgqOp fifo queues c c') (hroom : ¬FindsFull c c') :
    KernelInv c'.lw.k ∧ WaitKinds queues c'.lw.k := by
  have hsame : KernelInv c.lw.k ∧ WaitKinds queues c.lw.k := ⟨i.running.inv, i.kinds⟩
  cases h with
  | @send q' message flags hq _ =>
    unfold MsgqSys.send
    simp only
    split_ifs with hvalid hfull hblock
    · exact hsame
    · exact i.waitWriter ha hq
    · exact hsame
    · exact i.put message flags
  | @sendIsr q' message hq =>
    unfold MsgqSys.send
    simp only
    split_ifs with hvalid hfull hblock
    · exact hsame
    · exact absurd hblock (by decide)
    · exact hsame
    · exact i.put message ⟨false, false⟩
  | @resumeSend q' message flags hq hcall =>
    have hnot : ¬(c.lw.lwmsgq q').IsFull := fun hfull => hroom (.mk hcall hfull)
    unfold MsgqSys.resumeSend
    simp only [if_neg hnot]
    exact i.put message flags
  | @receive q' blockOnEmpty timeout hq _ =>
    unfold MsgqSys.receive
    simp only
    split_ifs with hvalid hempty hblock
    · exact hsame
    · exact i.waitReader ha hq fifo timeout
    · exact hsame
    · exact i.take hq
  | @resumeReceive q' timeout hq _ =>
    unfold MsgqSys.resumeReceive
    simp only
    split_ifs with htimeout hempty
    · exact hsame
    · exact i.waitReader ha hq fifo timeout
    · exact i.take hq
  | tick hw =>
    have hspec := i.running.inv.timeNotifyKernel i.running.sliceReady hw
    refine ⟨hspec.inv, ?_⟩
    have hleft : ∀ q', ∀ t ∈ (c.lw.k.timeNotifyKernel hw).queues q', t ∈ c.lw.k.queues q' ∧
        (c.lw.k.advanceTime hw).expired t = false := by
      intro q' t ht
      rw [hspec.queues, List.mem_filter] at ht
      exact ⟨ht.1, by simpa using ht.2⟩
    apply i.kinds.of_sub
    · exact fun q' t ht => (hleft q' t ht).1
    · intro q' t ht
      obtain ⟨s, hs⟩ := hspec.td t
      have hx := (hleft q' t ht).2
      have hstate : ((c.lw.k.timeNotifyKernel hw).td t).state = (c.lw.k.td t).state := by
        rw [hs, hx]
        rfl
      have hon : ((c.lw.k.timeNotifyKernel hw).td t).onTimeoutQ = (c.lw.k.td t).onTimeoutQ := by
        rw [hs, hx]
        exact Bool.and_true _
      exact ⟨hstate, fun h => hon.trans h⟩

/-- The dispatcher takes a task from a ready queue. -/
theorem dispatch {u p : ℕ} (hi : KernelInv c.lw.k) (hw : WaitKinds queues c.lw.k)
    (hu : u ∈ c.lw.k.readyQ p) : SchedInv queues (c.dispatch u) :=
  ⟨⟨hi.dispatch u, ((hi.ready.mem u p).mp hu).1⟩, ⟨hw.writer, hw.reader⟩⟩

theorem setPriority (i : SchedInv queues c) (t p : ℕ) :
    KernelInv (c.setPriority t p).lw.k ∧ WaitKinds queues (c.setPriority t p).lw.k := by
  refine ⟨i.running.inv.schedSetPriorityInternal t p, ?_⟩
  apply i.kinds.of_sub
  · intro q' u hu
    simpa [MsgqSys.setPriority] using hu
  · intro q' u _
    by_cases hut : u = t
    · subst hut
      obtain ⟨s, hs⟩ := c.lw.k.schedSetPriorityInternal_td_self u p
      refine ⟨(congrArg Td.state hs).trans rfl, fun h => ?_⟩
      exact (congrArg Td.onTimeoutQ hs).trans h
    · have htd : (c.setPriority t p).lw.k.td u = c.lw.k.td u :=
        c.lw.k.schedSetPriorityInternal_td_of_ne p hut
      rw [htd]
      exact ⟨rfl, fun h => h⟩

theorem step {fifo : Bool} (i : SchedInv queues c) (ha : Apart queues)
    (h : RoomStep fifo queues c c') : SchedInv queues c' := by
  cases h with
  | op u p hop hroom hu =>
    obtain ⟨hi, hw⟩ := i.op ha hop hroom
    exact dispatch hi hw hu
  | setPriority t newPriority u p hu =>
    obtain ⟨hi, hw⟩ := i.setPriority t newPriority
    exact dispatch hi hw hu

theorem steps {fifo : Bool} (i : SchedInv queues c) (ha : Apart queues)
    (h : Relation.ReflTransGen (RoomStep fifo queues) c c') : SchedInv queues c' := by
  induction h with
  | refl => exact i
  | tail _ hstep ih => exact ih.step ha hstep

end SchedInv

/-- Every waiting task has the `STATE` of its queue, and none is on a ready queue. -/
structure WaitersConsistent (queues : Set ℕ) (k : KernelData) : Prop where
  writer : ∀ q ∈ queues, ∀ t ∈ k.queues (waitingWriters q), (k.td t).state = .lwmsgqWriteBlocked
  reader : ∀ q ∈ queues, ∀ t ∈ k.queues (waitingReaders q), (k.td t).state = .lwmsgqReadBlocked
  apart : ∀ t p q, ¬(t ∈ k.readyQ p ∧ t ∈ k.queues q)

/-- In every run in which no woken writer comes back to a full queue, the waiting tasks are
as they should be. -/
theorem waiters_consistent {queues : Set ℕ} {fifo : Bool} {c c' : MsgqSys} (ha : Apart queues)
    (hrunning : Running c.lw.k)
    (hempty : ∀ q ∈ queues, c.lw.k.queues (waitingWriters q) = [] ∧
      c.lw.k.queues (waitingReaders q) = [])
    (hrun : Relation.ReflTransGen (RoomStep fifo queues) c c') :
    WaitersConsistent queues c'.lw.k := by
  have hinit : SchedInv queues c := by
    refine ⟨hrunning, ?_, ?_⟩
    · intro q hq t ht
      simp [(hempty q hq).1] at ht
    · intro q hq t ht
      simp [(hempty q hq).2] at ht
  have i := hinit.steps ha hrun
  constructor
  · exact fun q hq t ht => (i.kinds.writer q hq t ht).1
  · exact i.kinds.reader
  · rintro t p q ⟨hp, hq⟩
    exact i.running.inv.ne_ready hq ((i.running.inv.ready.mem t p).mp hp).1

/-- Three tasks and two queues for one message. -/
def schedBoot : MsgqSys :=
  { msgqBoot with lw := (msgqBoot.lw.lwmsgqInitInternal 0x400 1 1 false).2 }

theorem apart_pair : Apart {0x300, 0x400} := by
  rintro q (rfl | rfl) q' (rfl | rfl) hne
  · exact absurd rfl hne
  · exact Or.inl (by decide)
  · exact Or.inr (by decide)
  · exact absurd rfl hne

theorem schedBoot_running : Running schedBoot.lw.k := by
  have hfirst : msgqBoot.lw.k = bootKernel 3 := (bootLw 3).lwmsgqInitInternal_k rfl rfl
  have hk : schedBoot.lw.k = bootKernel 3 := by
    refine (msgqBoot.lw.lwmsgqInitInternal_k ?_ ?_).trans hfirst
    · rw [hfirst]
      rfl
    · rw [hfirst]
      rfl
  rw [hk]
  exact bootKernel_running (by decide)

/-- The first task waits on the second queue for one tick. The second task fills the first
queue and waits to send again. After the tick the first task takes the message, which
wakes the second one, puts another message in and waits again; the second task comes
back to a full queue. -/
def refilled : MsgqSys :=
  let c := ((schedBoot.receive false 0x400 true (some 1)).2).dispatch 2
  let c := ((c.send 0x300 (numbers 10) blockOnFull).2).dispatch 2
  let c := ((c.send 0x300 (numbers 20) blockOnFull).2).dispatch 3
  let c := (c.tick 0).dispatch 1
  let c := ((c.resumeReceive false 0x400 (some 2)).2).dispatch 1
  let c := ((c.receive false 0x300 true none).2).dispatch 1
  let c := ((c.send 0x300 (numbers 30) blockOnFull).2).dispatch 1
  let c := ((c.receive false 0x400 true none).2).dispatch 2
  ((c.resumeSend 0x300 (numbers 20) blockOnFull).2).dispatch 3

theorem refilled_run :
    Relation.ReflTransGen (SchedStep false {0x300, 0x400}) schedBoot refilled := by
  refine .head (.op 2 2 (.receive true (some 1) (Or.inr rfl) rfl) (by decide)) ?_
  refine .head (.op 2 2 (.send (numbers 10) blockOnFull (Or.inl rfl) (by rfl)) (by decide)) ?_
  refine .head (.op 3 3 (.send (numbers 20) blockOnFull (Or.inl rfl) (by rfl)) (by decide)) ?_
  refine .head (.op 1 1 (.tick 0) (by decide)) ?_
  refine .head (.op 1 1 (.resumeReceive (some 2) (Or.inr rfl) (by rfl)) (by decide)) ?_
  refine .head (.op 1 1 (.receive true none (Or.inl rfl) (by rfl)) (by decide)) ?_
  refine .head (.op 1 1 (.send (numbers 30) blockOnFull (Or.inl rfl) (by rfl)) (by decide)) ?_
  refine .head (.op 2 2 (.receive true none (Or.inr rfl) (by rfl)) (by decide)) ?_
  exact .single (.op 3 3 (.resumeSend (Or.inl rfl) (by rfl)) (by decide))

/-- The writer that came back to a full queue waits and looks ready; changing its priority
puts it on a ready queue as well. -/
theorem writer_waits_ready :
    Relation.ReflTransGen (SchedStep false {0x300, 0x400}) schedBoot refilled ∧
      2 ∈ refilled.lw.k.queues (waitingWriters 0x300) ∧
      (refilled.lw.k.td 2).state = .ready ∧
      2 ∈ (refilled.setPriority 2 3).lw.k.readyQ 3 ∧
      2 ∈ (refilled.setPriority 2 3).lw.k.queues (waitingWriters 0x300) :=
  ⟨refilled_run, by decide, by decide, by decide, by decide⟩

/-- The same run up to the moment at which the second task waits to send. -/
def filled : MsgqSys :=
  let c := ((schedBoot.receive false 0x400 true (some 1)).2).dispatch 2
  let c := ((c.send 0x300 (numbers 10) blockOnFull).2).dispatch 2
  ((c.send 0x300 (numbers 20) blockOnFull).2).dispatch 3

theorem waiters_consistent_filled :
    Relation.ReflTransGen (RoomStep false {0x300, 0x400}) schedBoot filled ∧
      filled.lw.k.queues (waitingWriters 0x300) = [2] ∧
      filled.lw.k.queues (waitingReaders 0x400) = [1] ∧
      WaitersConsistent {0x300, 0x400} filled.lw.k := by
  have hrun : Relation.ReflTransGen (RoomStep false {0x300, 0x400}) schedBoot filled := by
    refine .head (.op 2 2 (.receive true (some 1) (Or.inr rfl) rfl) ?_ (by decide)) ?_
    · exact fun h => h.call_ne_none (by rfl)
    refine .head (.op 2 2 (.send (numbers 10) blockOnFull (Or.inl rfl) (by rfl)) ?_ (by decide)) ?_
    · exact fun h => h.call_ne_none (by rfl)
    refine .single (.op 3 3 (.send (numbers 20) blockOnFull (Or.inl rfl) (by rfl)) ?_ (by decide))
    exact fun h => h.call_ne_none (by rfl)
  refine ⟨hrun, by decide, by decide, ?_⟩
  apply waiters_consistent apart_pair schedBoot_running ?_ hrun
  rintro q (rfl | rfl)
  · exact ⟨by decide, by decide⟩
  · exact ⟨by decide, by decide⟩

end Mqx.Lw
