import Mqx.Sched.Time

/-!
# Waiting on a queue and being activated

The lightweight components block the active task in the same way, with or without a limit
on the time, and wake it in the same way. This module states what both do to the task
descriptors and to the queues, so that the components need not look into them.
-/

namespace Mqx.Sched

namespace KernelData

variable (k : KernelData)

/-- How a component blocks a task: it waits on the queue, and also on the timeout queue if
the wait is limited, until the given time. -/
def waitFor (fifo : Bool) (t : ℕ) (state : TaskState) (q : ℕ) : Option ℕ → KernelData
  | none => k.waitOn t state q
  | some ticks =>
    ((k.setTd t { k.td t with timeout := ticks }).waitOn t state q).timeDelayInternal fifo t

section Fields

variable (fifo : Bool) (t : ℕ) (state : TaskState) (q : ℕ) (timeout : Option ℕ)

@[simp] theorem waitFor_activePtr : (k.waitFor fifo t state q timeout).activePtr = k.activePtr := by
  cases timeout <;> rfl

@[simp] theorem waitFor_queues :
    (k.waitFor fifo t state q timeout).queues =
      Function.update k.queues q (k.queues q ++ [t]) := by
  cases timeout <;> rfl

theorem waitFor_td_self : (k.waitFor fifo t state q timeout).td t =
    { k.td t with
      state := state
      info := q
      timeout := timeout.getD (k.td t).timeout
      onTimeoutQ := timeout.isSome || (k.td t).onTimeoutQ } := by
  cases timeout with
  | none => simp [waitFor]
  | some ticks =>
    simp only [waitFor, timeDelayInternal_td_self, waitOn_td_self, setTd_td_self]
    simp

variable {t} in
theorem waitFor_td_of_ne {u : ℕ} (h : u ≠ t) :
    (k.waitFor fifo t state q timeout).td u = k.td u := by
  cases timeout with
  | none => exact k.waitOn_td_of_ne _ _ h
  | some ticks =>
    rw [waitFor, timeDelayInternal_td_of_ne _ _ h, waitOn_td_of_ne _ _ _ h, setTd_td_of_ne _ _ h]

@[simp] theorem activate_activePtr : (k.activate q t).activePtr = k.activePtr := by
  unfold activate timeDequeue
  simp only
  split_ifs <;> rfl

@[simp] theorem activate_queues :
    (k.activate q t).queues = Function.update k.queues q ((k.queues q).erase t) := by
  unfold activate
  simp only [taskReady_queues, setTd_queues, timeDequeue_queues]
  rfl

theorem activate_td_self : (k.activate q t).td t =
    { k.td t with info := 0, state := .ready, onTimeoutQ := false, currentTimeSlice := 0 } := by
  unfold activate
  simp

variable {t} in
theorem activate_td_of_ne {u : ℕ} (h : u ≠ t) : (k.activate q t).td u = k.td u := by
  unfold activate
  rw [taskReady_td_of_ne _ h, setTd_td_of_ne _ _ h, timeDequeue_td_of_ne _ h, queueRemove_td]

@[simp] theorem dispatch_td (u : ℕ) : (k.dispatch u).td = k.td := rfl
@[simp] theorem dispatch_queues (u : ℕ) : (k.dispatch u).queues = k.queues := rfl
@[simp] theorem dispatch_timeoutQueue (u : ℕ) : (k.dispatch u).timeoutQueue = k.timeoutQueue := rfl

end Fields
end KernelData

namespace KernelInv

variable {k : KernelData} {t q : ℕ}

/-- A ready task blocks on a queue of a lightweight component. -/
theorem waitFor (i : KernelInv k) (h : (k.td t).state = .ready) {state : TaskState}
    (hs : state.isOnAuxQueue) (q : ℕ) (timeout : Option ℕ) (fifo : Bool) :
    KernelInv (k.waitFor fifo t state q timeout) := by
  cases timeout with
  | none => exact i.waitOn h (TaskState.isWaiting_of_isOnAuxQueue hs) q
  | some ticks => exact i.waitOn_timed h hs q ticks fifo

/-- A store to fields that name no queue. -/
theorem setTd (i : KernelInv k) {d : Td} (hs : d.state = (k.td t).state)
    (hm : d.myQueue = (k.td t).myQueue) (hi : d.info = (k.td t).info)
    (ho : d.onTimeoutQ = (k.td t).onTimeoutQ) (ht : d.timeout = (k.td t).timeout) :
    KernelInv (k.setTd t d) := by
  have htd : ∀ {α : Type} (f : Td → α), f d = f (k.td t) →
      ∀ u, f ((k.setTd t d).td u) = f (k.td u) := by
    intro α f hf u
    by_cases hut : u = t
    · subst hut
      rw [KernelData.setTd_td_self, hf]
    · rw [KernelData.setTd_td_of_ne _ _ hut]
  exact i.congr rfl rfl rfl (htd _ hs) (htd _ hm) (fun u _ => htd _ hi u) (htd _ ho)
    (fun u _ => htd _ ht u)

/-- A task on a queue of waiting tasks knows the queue. -/
theorem info_of_mem (i : KernelInv k) (h : t ∈ k.queues q) : (k.td t).info = q :=
  ((i.wait.mem t q).mp h).2

end KernelInv

namespace Running

variable {k : KernelData}

/-- The active task blocks and another one is dispatched. -/
theorem waitFor (r : Running k) {state : TaskState} (hs : state.isOnAuxQueue) (q : ℕ)
    (timeout : Option ℕ) (fifo : Bool) {u : ℕ}
    (hu : ((k.waitFor fifo k.activePtr state q timeout).td u).state = .ready) :
    Running ((k.waitFor fifo k.activePtr state q timeout).dispatch u) :=
  ⟨(r.inv.waitFor r.active hs q timeout fifo).dispatch u, hu⟩

theorem dispatch (r : Running k) {u : ℕ} (hu : (k.td u).state = .ready) : Running (k.dispatch u) :=
  ⟨r.inv.dispatch u, hu⟩

theorem setTd (r : Running k) {t : ℕ} {d : Td} (hs : d.state = (k.td t).state)
    (hm : d.myQueue = (k.td t).myQueue) (hi : d.info = (k.td t).info)
    (ho : d.onTimeoutQ = (k.td t).onTimeoutQ) (ht : d.timeout = (k.td t).timeout) :
    Running (k.setTd t d) := by
  refine ⟨r.inv.setTd hs hm hi ho ht, ?_⟩
  have hptr : (k.setTd t d).activePtr = k.activePtr := rfl
  rw [hptr]
  by_cases hta : k.activePtr = t
  · rw [hta, KernelData.setTd_td_self, hs, ← hta]
    exact r.active
  · rw [KernelData.setTd_td_of_ne _ _ hta]
    exact r.active

theorem notMem_queue (r : Running k) (q : ℕ) : k.activePtr ∉ k.queues q :=
  r.inv.notMem_queue r.active q

end Running
end Mqx.Sched
