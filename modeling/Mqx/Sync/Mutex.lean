import Mqx.Sched.Priority

/-!
# Mutexes and task queues

The calls on mutexes and task queues, as the sections that run with interrupts disabled.
A call of `_mutex_lock` or `_mutex_unlock` has several of them: interrupts are enabled
between its tests and its sections, and every boost ends with a call of the scheduler. The
program counter of a task says which section of its call comes next.
-/

namespace Mqx.Sync

open Mqx.Sched

/-- The wait protocols, of which a mutex has one. -/
inductive WaitProtocol
  | spinOnly
  | limitedSpin
  | queueing
  | priorityQueueing
  deriving DecidableEq, Repr

/-- `MUTEX_STRUCT`. The scheduling protocols of `PROTOCOLS` are fields of their own, and
`NULL` is zero in `OWNER_TD`. -/
structure Mutex where
  waitProtocol : WaitProtocol
  prioInherit : Bool
  prioProtect : Bool
  priorityCeiling : ℕ
  count : ℕ
  lock : Bool
  ownerTd : ℕ
  boosted : ℕ

/-- What the queue at an address belongs to: `WAITING_TASKS` of a valid mutex, or
`TD_QUEUE` of a valid task queue with its policy. -/
inductive WaitObject
  | invalid
  | mutex (m : Mutex)
  | taskQueue (byPriority : Bool)

/-- What the calls return. -/
inductive Status
  | eok
  | einval
  | edeadlk
  | ebusy
  | ok
  | invalidTaskQueue
  | taskQueueEmpty
  | invalidParameter
  | invalidTaskId
  deriving DecidableEq, Repr

/-- Where a task is in its call; `q` is the mutex. -/
inductive Pc
  /-- In no call. -/
  | idle
  /-- At the head of the loop of a spinning `_mutex_lock`. -/
  | lockSpin (q priority count : ℕ)
  /-- The same, after it has boosted the owner. -/
  | lockSpinBump (q priority count : ℕ)
  /-- The lock of a spinning mutex is set, the owner not yet stored. -/
  | lockOwn (q : ℕ)
  /-- Before the section of a queueing `_mutex_lock`. -/
  | lockTest (q priority : ℕ)
  /-- In that section, after it has boosted the owner. -/
  | lockBump (q : ℕ)
  /-- The mutex is ours, by the section or by the one that unlocked it. -/
  | lockWoken (q : ℕ)
  /-- The same, after we have boosted ourselves. -/
  | lockWokenBump (q : ℕ)
  /-- Before the section that applies the priority ceiling. -/
  | lockProtect (q : ℕ)
  /-- The same, after we have boosted ourselves. -/
  | lockProtectBump (q : ℕ)
  /-- The mutex is handed over and its new owner boosted to the ceiling. -/
  | unlockBump (q boosted : ℕ)
  /-- The mutex is handed over and the scheduler has run. -/
  | unlockTail (boosted : ℕ)
  deriving DecidableEq, Repr

/-- Another task can be scheduled here. -/
def Pc.preemptible : Pc → Bool
  | lockWoken _ => false
  | _ => true

/-- The kernel with its mutexes and task queues, each named by the address of its queue. -/
structure SyncData where
  k : KernelData
  object : ℕ → WaitObject
  pc : ℕ → Pc
  result : ℕ → Status
  isTask : ℕ → Bool
  lowestTaskPriority : ℕ

namespace SyncData

variable (s : SyncData)

/-- The descriptor of the active task. -/
def self : Td := s.k.td s.k.activePtr

/-- The call of the active task goes on at `pc`. -/
def goto (pc : Pc) : SyncData := { s with pc := Function.update s.pc s.k.activePtr pc }

/-- The call of the active task returns. -/
def finish (r : Status) : SyncData :=
  { s with
    pc := Function.update s.pc s.k.activePtr .idle
    result := Function.update s.result s.k.activePtr r }

def setMutex (q : ℕ) (m : Mutex) : SyncData :=
  { s with object := Function.update s.object q (.mutex m) }

/-- `++BOOSTED` of a mutex. -/
def bump (q : ℕ) (m : Mutex) : SyncData := s.setMutex q { m with boosted := m.boosted + 1 }

def boost (t priority : ℕ) : SyncData :=
  { s with k := s.k.schedBoostPriorityInternal t priority }

/-- The scheduler switches to `u`, which has to be ready. -/
def switchTo (u : ℕ) : Option SyncData :=
  if (s.k.td u).state = .ready then some { s with k := s.k.dispatch u } else none

/-! ## `_mutex_lock` -/

/-- The tests of `_mutex_lock` before its sections. -/
def mutexLock (q : ℕ) : SyncData :=
  match s.object q with
  | .mutex m =>
    if m.ownerTd = s.k.activePtr then s.finish .edeadlk
    else
      match m.waitProtocol with
      | .spinOnly => s.goto (.lockSpin q s.self.myQueue 1)
      | .limitedSpin => s.goto (.lockSpin q s.self.myQueue m.count)
      | _ => s.goto (.lockTest q s.self.myQueue)
  | _ => s.finish .einval

/-- The owner has to inherit `priority`, and does not have it yet. -/
def mustBoost (m : Mutex) (priority : ℕ) : Bool :=
  m.prioInherit && decide ((s.k.td m.ownerTd).homeQueue > priority) &&
    decide ((s.k.td m.ownerTd).myQueue > priority)

/-- `++BOOSTED` when the home priority of the owner is lower. -/
def bumpIf (q : ℕ) (m : Mutex) (priority : ℕ) : SyncData :=
  if m.prioInherit = true ∧ (s.k.td m.ownerTd).homeQueue > priority then s.bump q m else s

/-- `_sched_yield`, and the loop goes on. -/
def spinYield (q priority count u : ℕ) : Option SyncData :=
  SyncData.switchTo { s.goto (.lockSpin q priority count) with k := s.k.schedYield } u

/-- One round of the loop of a spinning `_mutex_lock`. -/
def lockSpin (q priority count u : ℕ) : Option SyncData :=
  match s.object q with
  | .mutex m =>
    if count = 0 then some (s.finish .ebusy)
    else if m.lock then
      let count := if m.waitProtocol = .limitedSpin then count - 1 else count
      if s.mustBoost m priority then
        some ((s.boost m.ownerTd priority).goto (.lockSpinBump q priority count))
      else (s.bumpIf q m priority).spinYield q priority count u
    else some ((s.setMutex q { m with lock := true }).goto (.lockOwn q))
  | _ => some (s.finish .einval)

/-- The active task goes to sleep on the mutex. -/
def lockSleep (q : ℕ) (m : Mutex) (u : ℕ) : Option SyncData :=
  SyncData.switchTo
    { s.goto (.lockWoken q) with
      k := s.k.blockOn (decide (m.waitProtocol = .priorityQueueing)) s.k.activePtr .mutexBlocked q } u

/-- The section of a queueing `_mutex_lock`, up to a boost or to the end of the wait. -/
def lockTest (q priority u : ℕ) : Option SyncData :=
  match s.object q with
  | .mutex m =>
    if m.lock then
      if s.mustBoost m priority then
        some ((s.boost m.ownerTd priority).goto (.lockBump q))
      else (s.bumpIf q m priority).lockSleep q m u
    else
      some ((s.setMutex q { m with lock := true, ownerTd := s.k.activePtr }).goto (.lockWoken q))
  | _ => some (s.finish .einval)

/-- The owner of a mutex without priority queueing inherits from those who still wait. -/
def lockWoken (q : ℕ) : SyncData :=
  match s.object q with
  | .mutex m =>
    let count := s.k.schedGetMaxPriorityOnQInternal q
    if m.prioInherit = true ∧ m.waitProtocol ≠ .priorityQueueing ∧ count < s.self.homeQueue then
      if count < s.self.myQueue then
        (s.boost s.k.activePtr count).goto (.lockWokenBump q)
      else (s.bump q m).goto (.lockProtect q)
    else s.goto (.lockProtect q)
  | _ => s.finish .einval

/-- The section that applies the priority ceiling, the last one of a lock. -/
def lockProtect (q : ℕ) : SyncData :=
  match s.object q with
  | .mutex m =>
    if m.prioProtect = true ∧ m.priorityCeiling < s.self.homeQueue then
      if m.priorityCeiling < s.self.myQueue then
        (s.boost s.k.activePtr m.priorityCeiling).goto (.lockProtectBump q)
      else (s.bump q m).finish .eok
    else s.finish .eok
  | _ => s.finish .einval

/-- `++BOOSTED` of the mutex, which is read again. -/
def bumpAt (q : ℕ) : SyncData :=
  match s.object q with
  | .mutex m => s.bump q m
  | _ => s

/-! ## `_mutex_try_lock` and `_mutex_unlock` -/

def mutexTryLock (q : ℕ) : SyncData :=
  match s.object q with
  | .mutex m =>
    if m.lock then s.finish (if m.ownerTd = s.k.activePtr then .edeadlk else .ebusy)
    else
      (s.setMutex q { m with lock := true, ownerTd := s.k.activePtr }).goto (.lockProtect q)
  | _ => s.finish .einval

/-- The last section of `_mutex_unlock`. -/
def unlockTail (boosted : ℕ) : SyncData :=
  let s' := if boosted ≠ 0 then
    { s with k := s.k.schedUnboostPriorityInternal s.k.activePtr boosted } else s
  s'.finish .eok

/-- The mutex `m` is handed to the waiter `t`. -/
def handOver (q : ℕ) (m : Mutex) (t boosted : ℕ) : SyncData :=
  let m' := { m with ownerTd := t, boosted := 0 }
  let s' := { s.setMutex q m' with k := s.k.dequeueReady q t }
  let d := s'.k.td t
  if m.prioProtect = true ∧ m.priorityCeiling < d.homeQueue then
    if m.priorityCeiling < d.myQueue then
      (s'.boost t m.priorityCeiling).goto (.unlockBump q boosted)
    else (s'.bump q m').goto (.unlockTail boosted)
  else s'.goto (.unlockTail boosted)

def mutexUnlock (q : ℕ) : SyncData :=
  match s.object q with
  | .mutex m =>
    if m.lock = false ∨ m.ownerTd ≠ s.k.activePtr then s.finish .einval
    else
      let free := s.setMutex q { m with lock := false, ownerTd := 0, boosted := 0 }
      if m.waitProtocol = .spinOnly ∨ m.waitProtocol = .limitedSpin then free.unlockTail m.boosted
      else
        match s.k.queues q with
        | [] => free.unlockTail m.boosted
        | t :: _ => s.handOver q m t m.boosted
  | _ => s.finish .einval

/-! ## Task queues and priorities -/

def taskqSuspend (q u : ℕ) : Option SyncData :=
  match s.object q with
  | .taskQueue byPriority =>
    SyncData.switchTo
      { s.finish .ok with
        k := s.k.blockOn byPriority s.k.activePtr .taskQueueBlocked q } u
  | _ => some (s.finish .invalidTaskQueue)

/-- The tasks of the list leave the queue and become ready, one by one. -/
def resumeAll (q : ℕ) : List ℕ → KernelData → KernelData
  | [], k => k
  | t :: l, k => resumeAll q l (k.dequeueReady q t)

/-- `_taskq_resume`, of a task or of an interrupt handler. -/
def taskqResume (q : ℕ) (allTasks : Bool) : Status × SyncData :=
  match s.object q with
  | .taskQueue _ =>
    match s.k.queues q with
    | [] => (.taskQueueEmpty, s)
    | t :: l => (.ok, { s with k := resumeAll q (if allTasks then t :: l else [t]) s.k })
  | _ => (.invalidTaskQueue, s)

/-- The task waits on a task queue by priority, on which `_task_set_priority` queues it
again. -/
def requeues (t : ℕ) : Bool :=
  decide ((s.k.td t).state = .taskQueueBlocked) &&
    match s.object (s.k.td t).info with
    | .taskQueue byPriority => byPriority
    | _ => false

/-- `_task_set_priority`, with the old home priority that it reports. -/
def taskSetPriority (t newPriority : ℕ) : Status × Option ℕ × SyncData :=
  if newPriority > s.lowestTaskPriority then (.invalidParameter, none, s)
  else if s.isTask t = false then (.invalidTaskId, none, s)
  else
    let k := s.k.setHomePriority t newPriority
    let k :=
      if s.requeues t then
        (k.queueRemove (s.k.td t).info t).schedInsertPriorityqInternal (s.k.td t).info t
      else k
    (.ok, some (s.k.td t).homeQueue, { s with k := k })

/-! ## Steps -/

/-- The next section of the active task; `u` is who runs if it gives up the processor. -/
def run (u : ℕ) : Option SyncData :=
  match s.pc s.k.activePtr with
  | .idle => none
  | .lockSpin q priority count => s.lockSpin q priority count u
  | .lockSpinBump q priority count => (s.bumpAt q).spinYield q priority count u
  | .lockOwn q =>
    match s.object q with
    | .mutex m => some ((s.setMutex q { m with ownerTd := s.k.activePtr }).goto (.lockProtect q))
    | _ => some (s.finish .einval)
  | .lockTest q priority => s.lockTest q priority u
  | .lockBump q =>
    match s.object q with
    | .mutex m => (s.bump q m).lockSleep q m u
    | _ => some (s.finish .einval)
  | .lockWoken q => some (s.lockWoken q)
  | .lockWokenBump q => some ((s.bumpAt q).goto (.lockProtect q))
  | .lockProtect q => some (s.lockProtect q)
  | .lockProtectBump q => some ((s.bumpAt q).finish .eok)
  | .unlockBump q boosted => some ((s.bumpAt q).goto (.unlockTail boosted))
  | .unlockTail boosted => some (s.unlockTail boosted)

end SyncData

/-- What can happen next. -/
inductive Event
  | dispatch (u : ℕ)
  | run (u : ℕ)
  | lock (q : ℕ)
  | tryLock (q : ℕ)
  | unlock (q : ℕ)
  | suspend (q u : ℕ)
  | resume (q : ℕ) (allTasks : Bool)
  | setPriority (t newPriority : ℕ)
  deriving DecidableEq, Repr

/-- One event, if it can happen: calls are made by the active task when it is in none,
another task is scheduled, and interrupts handled, where interrupts are enabled. -/
def SyncData.exec (s : SyncData) : Event → Option SyncData
  | .dispatch u => if (s.pc s.k.activePtr).preemptible then s.switchTo u else none
  | .run u => s.run u
  | .lock q => if s.pc s.k.activePtr = .idle then some (s.mutexLock q) else none
  | .tryLock q => if s.pc s.k.activePtr = .idle then some (s.mutexTryLock q) else none
  | .unlock q => if s.pc s.k.activePtr = .idle then some (s.mutexUnlock q) else none
  | .suspend q u => if s.pc s.k.activePtr = .idle then s.taskqSuspend q u else none
  | .resume q allTasks =>
    if (s.pc s.k.activePtr).preemptible then some (s.taskqResume q allTasks).2 else none
  | .setPriority t p =>
    if s.pc s.k.activePtr = .idle then some (s.taskSetPriority t p).2.2 else none

end Mqx.Sync
