import Mqx.Library.OrderedInsert
import Mathlib.Logic.Function.Basic

/-!
# Task descriptors and the queues they are on

The kernel data that the components share: the task descriptors, the ready queues, the
timeout queue and the queues of waiting tasks. A queue is the list of its members in
order; a queue of waiting tasks is named by its address, which is also what a task keeps
in `INFO` while it waits. The queues of the lightweight components link the tasks
through `AUX_QUEUE`, so that a task can be on one of them and on the timeout queue.
-/

namespace Mqx.Sched

/-- The code in `STATE`. The bit `IS_ON_TIMEOUT_Q` is a field of its own. -/
inductive TaskState
  | ready
  | blocked
  | mutexBlocked
  | taskQueueBlocked
  | lwsemBlocked
  | lweventBlocked
  | lwmsgqReadBlocked
  | lwmsgqWriteBlocked
  deriving DecidableEq, Repr

namespace TaskState

/-- `STATE & TD_IS_ON_AUX_QUEUE`. -/
def isOnAuxQueue : TaskState → Bool
  | lwsemBlocked | lweventBlocked | lwmsgqReadBlocked | lwmsgqWriteBlocked => true
  | _ => false

/-- The task is on the queue of waiting tasks that `INFO` names, by `AUX_QUEUE` or by its
own links (`TD_IS_ON_QUEUE`). -/
def isWaiting : TaskState → Bool
  | ready | blocked => false
  | _ => true

end TaskState

/-- The fields of `TD_STRUCT` that the scheduler and the components read. A ready queue is
named by its priority, `TIMEOUT` is its field `TICKS[0]`, the bits of `FLAGS` are fields
of their own. -/
structure Td where
  state : TaskState
  onTimeoutQ : Bool
  info : ℕ
  myQueue : ℕ
  homeQueue : ℕ
  boosted : ℕ
  priorityBoosted : Bool
  timeout : ℕ
  lweventBits : BitVec 32
  allBitsWanted : Bool
  timeSliceTask : Bool
  preemptionDisabled : Bool
  currentTimeSlice : ℕ
  timeSlice : ℕ

/-- The part of `KERNEL_DATA_STRUCT` that scheduling and time need. -/
structure KernelData where
  td : ℕ → Td
  readyQ : ℕ → List ℕ
  currentReadyQ : ℕ
  activePtr : ℕ
  timeoutQueue : List ℕ
  queues : ℕ → List ℕ
  time : ℕ
  hwTicks : ℕ
  hwTicksPerTick : ℕ

namespace KernelData

variable (k : KernelData)

/-- Store to fields of a task descriptor. -/
def setTd (t : ℕ) (d : Td) : KernelData := { k with td := Function.update k.td t d }

/-- `_QUEUE_UNLINK` of a task that is on a ready queue. -/
def unlink (t : ℕ) : KernelData := { k with readyQ := fun p => (k.readyQ p).erase t }

/-- `_TASK_READY`. -/
def taskReady (t : ℕ) : KernelData :=
  let d := k.td t
  { k with
    currentReadyQ := if d.myQueue < k.currentReadyQ then d.myQueue else k.currentReadyQ
    td := Function.update k.td t
      { d with state := .ready, onTimeoutQ := false, currentTimeSlice := 0 }
    readyQ := Function.update k.readyQ d.myQueue (k.readyQ d.myQueue ++ [t]) }

/-- `_QUEUE_ENQUEUE` of a task on a queue of waiting tasks. -/
def enqueue (q t : ℕ) : KernelData :=
  { k with queues := Function.update k.queues q (k.queues q ++ [t]) }

/-- `_QUEUE_REMOVE` of a task from a queue of waiting tasks. -/
def queueRemove (q t : ℕ) : KernelData :=
  { k with queues := Function.update k.queues q ((k.queues q).erase t) }

/-- How a task goes to wait: `STATE` and `INFO` are stored, the task leaves its ready queue
and is put at the end of the queue. -/
def waitOn (t : ℕ) (state : TaskState) (q : ℕ) : KernelData :=
  ((k.setTd t { k.td t with state := state, info := q }).unlink t).enqueue q t

/-- `_TIME_DEQUEUE`. -/
def timeDequeue (t : ℕ) : KernelData :=
  if (k.td t).onTimeoutQ then
    { k with
      timeoutQueue := k.timeoutQueue.erase t
      td := Function.update k.td t { k.td t with onTimeoutQ := false } }
  else k

/-- How a waiting task is activated: it leaves the queue and the timeout queue, `INFO` is
cleared to signal that it has not timed out, and it becomes ready. -/
def activate (q t : ℕ) : KernelData :=
  let k := (k.queueRemove q t).timeDequeue t
  (k.setTd t { k.td t with info := 0 }).taskReady t

/-- `MQX_DELAY_ENQUEUE_POLICY`: does the new task go in front of this one? -/
def DelayEnqueuePolicy (fifo : Bool) (t u : ℕ) : Prop :=
  if fifo then (k.td t).timeout < (k.td u).timeout else (k.td t).timeout ≤ (k.td u).timeout

instance (fifo : Bool) : DecidableRel (k.DelayEnqueuePolicy fifo) := fun _ _ =>
  inferInstanceAs (Decidable (ite _ _ _))

/-- `_time_delay_internal`, up to the call of the scheduler. The insertion walks along the
queue until the policy holds. -/
def timeDelayInternal (fifo : Bool) (t : ℕ) : KernelData :=
  let k' := k.unlink t
  { k' with
    timeoutQueue := k.timeoutQueue.orderedInsert (k.DelayEnqueuePolicy fifo) t
    td := Function.update k.td t { k.td t with onTimeoutQ := true } }

/-- `_time_notify_kernel`: a task whose time has come leaves the timeout queue and the
queue it waits on, and becomes ready. -/
def wakeExpired (t : ℕ) : KernelData :=
  let k := { k with timeoutQueue := k.timeoutQueue.erase t }
  let k := if (k.td t).state.isOnAuxQueue then k.queueRemove (k.td t).info t else k
  k.taskReady t

/-- The loop of `_time_notify_kernel` over the timeout queue. -/
def wakeLoop : KernelData → List ℕ → KernelData
  | k, [] => k
  | k, t :: l => if (k.td t).timeout ≤ k.time then wakeLoop (k.wakeExpired t) l else k

/-- `PSP_INC_TICKS`, the reading of the hardware clock and `PSP_NORMALIZE_TICKS`. -/
def advanceTime (hw : ℕ) : KernelData :=
  { k with
    time := ((k.time + 1) % 2 ^ 64 + hw / k.hwTicksPerTick) % 2 ^ 64
    hwTicks := hw - hw / k.hwTicksPerTick * k.hwTicksPerTick }

/-- `_time_notify_kernel`: the time slice of the active task. -/
def timeSliceExpire : KernelData :=
  let t := k.activePtr
  let d := k.td t
  if d.timeSliceTask then
    let k := k.setTd t { d with currentTimeSlice := (d.currentTimeSlice + 1) % 2 ^ 64 }
    if ¬d.preemptionDisabled ∧ d.timeSlice ≤ (d.currentTimeSlice + 1) % 2 ^ 64 then
      (k.unlink t).taskReady t
    else k
  else k

/-- `_time_notify_kernel`; `hw` is what the hardware clock shows. -/
def timeNotifyKernel (hw : ℕ) : KernelData :=
  let k := k.advanceTime hw
  (wakeLoop k k.timeoutQueue).timeSliceExpire

section Fields

variable (t u q : ℕ) (d : Td) (s : TaskState) (fifo : Bool)

@[simp] theorem setTd_readyQ : (k.setTd t d).readyQ = k.readyQ := rfl
@[simp] theorem setTd_queues : (k.setTd t d).queues = k.queues := rfl
@[simp] theorem setTd_timeoutQueue : (k.setTd t d).timeoutQueue = k.timeoutQueue := rfl
@[simp] theorem setTd_time : (k.setTd t d).time = k.time := rfl
@[simp] theorem setTd_td_self : (k.setTd t d).td t = d := Function.update_self _ _ _

variable {t u} in
theorem setTd_td_of_ne (h : u ≠ t) : (k.setTd t d).td u = k.td u := Function.update_of_ne h _ _

@[simp] theorem unlink_td : (k.unlink t).td = k.td := rfl
@[simp] theorem unlink_queues : (k.unlink t).queues = k.queues := rfl
@[simp] theorem unlink_timeoutQueue : (k.unlink t).timeoutQueue = k.timeoutQueue := rfl
@[simp] theorem unlink_time : (k.unlink t).time = k.time := rfl

@[simp] theorem enqueue_td : (k.enqueue q t).td = k.td := rfl
@[simp] theorem enqueue_readyQ : (k.enqueue q t).readyQ = k.readyQ := rfl
@[simp] theorem enqueue_timeoutQueue : (k.enqueue q t).timeoutQueue = k.timeoutQueue := rfl

@[simp] theorem queueRemove_td : (k.queueRemove q t).td = k.td := rfl
@[simp] theorem queueRemove_readyQ : (k.queueRemove q t).readyQ = k.readyQ := rfl
@[simp] theorem queueRemove_timeoutQueue : (k.queueRemove q t).timeoutQueue = k.timeoutQueue := rfl
@[simp] theorem queueRemove_time : (k.queueRemove q t).time = k.time := rfl

@[simp] theorem taskReady_queues : (k.taskReady t).queues = k.queues := rfl
@[simp] theorem taskReady_timeoutQueue : (k.taskReady t).timeoutQueue = k.timeoutQueue := rfl
@[simp] theorem taskReady_time : (k.taskReady t).time = k.time := rfl
@[simp] theorem taskReady_td_self : (k.taskReady t).td t =
    { k.td t with state := .ready, onTimeoutQ := false, currentTimeSlice := 0 } :=
  Function.update_self _ _ _

variable {t u} in
theorem taskReady_td_of_ne (h : u ≠ t) : (k.taskReady t).td u = k.td u :=
  Function.update_of_ne h _ _

@[simp] theorem waitOn_timeoutQueue : (k.waitOn t s q).timeoutQueue = k.timeoutQueue := rfl
@[simp] theorem waitOn_td_self : (k.waitOn t s q).td t = { k.td t with state := s, info := q } :=
  Function.update_self _ _ _

variable {t u} in
theorem waitOn_td_of_ne (h : u ≠ t) : (k.waitOn t s q).td u = k.td u :=
  Function.update_of_ne h _ _

@[simp] theorem timeDequeue_readyQ : (k.timeDequeue t).readyQ = k.readyQ := by
  unfold timeDequeue
  split_ifs <;> rfl

@[simp] theorem timeDequeue_queues : (k.timeDequeue t).queues = k.queues := by
  unfold timeDequeue
  split_ifs <;> rfl

@[simp] theorem timeDequeue_td_self :
    (k.timeDequeue t).td t = { k.td t with onTimeoutQ := false } := by
  unfold timeDequeue
  split_ifs with h
  · exact Function.update_self _ _ _
  · have hf : (k.td t).onTimeoutQ = false := by simpa using h
    rw [← hf]

variable {t u} in
theorem timeDequeue_td_of_ne (h : u ≠ t) : (k.timeDequeue t).td u = k.td u := by
  unfold timeDequeue
  split_ifs
  · exact Function.update_of_ne h _ _
  · rfl

@[simp] theorem timeDelayInternal_queues : (k.timeDelayInternal fifo t).queues = k.queues := rfl
@[simp] theorem timeDelayInternal_td_self :
    (k.timeDelayInternal fifo t).td t = { k.td t with onTimeoutQ := true } :=
  Function.update_self _ _ _

variable {t u} in
theorem timeDelayInternal_td_of_ne (h : u ≠ t) : (k.timeDelayInternal fifo t).td u = k.td u :=
  Function.update_of_ne h _ _

end Fields

end KernelData
end Mqx.Sched
