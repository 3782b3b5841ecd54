import Mqx.Sched.Wait

/-!
# Changing the priority of a task

A ready task moves to the end of the ready queue of its new priority; for any other task
only `MY_QUEUE` changes. The decision is made from `STATE` alone.
-/

namespace Mqx.Sched

namespace KernelData

variable (k : KernelData)

/-- `_sched_set_priority_internal`, up to the call of the scheduler. -/
def schedSetPriorityInternal (t newPriority : ℕ) : KernelData :=
  let k := k.setTd t { k.td t with myQueue := newPriority }
  if (k.td t).state = .ready ∧ (k.td t).onTimeoutQ = false then (k.unlink t).taskReady t else k

@[simp] theorem schedSetPriorityInternal_queues (t p : ℕ) :
    (k.schedSetPriorityInternal t p).queues = k.queues := by
  unfold schedSetPriorityInternal
  simp only
  split_ifs <;> rfl

@[simp] theorem schedSetPriorityInternal_activePtr (t p : ℕ) :
    (k.schedSetPriorityInternal t p).activePtr = k.activePtr := by
  unfold schedSetPriorityInternal
  simp only
  split_ifs <;> rfl

theorem schedSetPriorityInternal_td_of_ne {t u : ℕ} (p : ℕ) (h : u ≠ t) :
    (k.schedSetPriorityInternal t p).td u = k.td u := by
  unfold schedSetPriorityInternal
  simp only
  split_ifs
  · rw [taskReady_td_of_ne _ h, unlink_td, setTd_td_of_ne _ _ h]
  · exact setTd_td_of_ne _ _ h

/-- The slice counter is the only other field that changes. -/
theorem schedSetPriorityInternal_td_self (t p : ℕ) :
    ∃ c, (k.schedSetPriorityInternal t p).td t =
      { k.td t with myQueue := p, currentTimeSlice := c } := by
  unfold schedSetPriorityInternal
  simp only [setTd_td_self]
  split_ifs with h
  · rw [taskReady_td_self, unlink_td, setTd_td_self]
    obtain ⟨hs, ho⟩ := h
    exact ⟨0, by rw [← hs, ← ho]⟩
  · exact ⟨(k.td t).currentTimeSlice, setTd_td_self _ _ _⟩

/-- `_sched_boost_priority_internal`. -/
def schedBoostPriorityInternal (t priority : ℕ) : KernelData :=
  let k := k.setTd t { k.td t with priorityBoosted := true, boosted := (k.td t).boosted + 1 }
  k.schedSetPriorityInternal t priority

/-- `_sched_unboost_priority_internal`. -/
def schedUnboostPriorityInternal (t numberOfBoosts : ℕ) : KernelData :=
  let d := k.td t
  if d.priorityBoosted then
    if d.boosted > numberOfBoosts then k.setTd t { d with boosted := d.boosted - numberOfBoosts }
    else (k.setTd t { d with boosted := 0, priorityBoosted := false }).schedSetPriorityInternal
      t d.homeQueue
  else k

/-- The current priority that `_task_set_priority` gives to a task: one that is boosted is
only raised. -/
def newPriorityOf (t newPriority : ℕ) : ℕ :=
  if (k.td t).boosted ≠ 0 ∧ ¬newPriority < (k.td t).myQueue then (k.td t).myQueue
  else newPriority

/-- `_task_set_priority`, up to the queue that the task may wait on. -/
def setHomePriority (t newPriority : ℕ) : KernelData :=
  let k' := k.setTd t { k.td t with homeQueue := newPriority }
  if (k.td t).boosted ≠ 0 ∧ ¬newPriority < (k.td t).myQueue then k'
  else k'.schedSetPriorityInternal t newPriority

/-- `_sched_insert_priorityq_internal`: the walk along the queue ends at the first task of
a lower priority. -/
def schedInsertPriorityqInternal (q t : ℕ) : KernelData :=
  { k with
    queues := Function.update k.queues q
      ((k.queues q).orderedInsert (fun a b => (k.td a).myQueue < (k.td b).myQueue) t) }

/-- `_sched_get_max_priority_on_q_internal`. -/
def schedGetMaxPriorityOnQInternal (q : ℕ) : ℕ :=
  (k.queues q).foldl (fun p t => if (k.td t).myQueue < p then (k.td t).myQueue else p) (2 ^ 32 - 1)

/-- `_sched_yield` of the active task, up to the call of the scheduler. -/
def schedYield : KernelData := (k.unlink k.activePtr).taskReady k.activePtr

/-- How a task goes to wait on a queue of its own links, by priority or at the end. -/
def blockOn (byPriority : Bool) (t : ℕ) (state : TaskState) (q : ℕ) : KernelData :=
  if byPriority then
    let k := (k.setTd t { k.td t with state := state, info := q }).unlink t
    k.schedInsertPriorityqInternal q t
  else k.waitOn t state q

/-- `_QUEUE_DEQUEUE` and `_TASK_READY`. -/
def dequeueReady (q t : ℕ) : KernelData := (k.queueRemove q t).taskReady t

/-- A change that no queue of waiting tasks notices, the priorities apart. -/
structure SameWaits (k k' : KernelData) : Prop where
  queues : k'.queues = k.queues
  activePtr : k'.activePtr = k.activePtr
  state : ∀ t, (k'.td t).state = (k.td t).state
  info : ∀ t, (k'.td t).info = (k.td t).info

variable {k}

theorem SameWaits.refl (k : KernelData) : SameWaits k k :=
  ⟨rfl, rfl, fun _ => rfl, fun _ => rfl⟩

theorem SameWaits.trans {k' k'' : KernelData} (h : SameWaits k k') (h' : SameWaits k' k'') :
    SameWaits k k'' :=
  ⟨h'.queues.trans h.queues, h'.activePtr.trans h.activePtr,
    fun t => (h'.state t).trans (h.state t), fun t => (h'.info t).trans (h.info t)⟩

theorem sameWaits_setTd {t : ℕ} {d : Td} (hs : d.state = (k.td t).state)
    (hi : d.info = (k.td t).info) : SameWaits k (k.setTd t d) := by
  refine ⟨rfl, rfl, ?_, ?_⟩
  · intro u
    by_cases hut : u = t
    · rw [hut, setTd_td_self, hs]
    · rw [setTd_td_of_ne _ _ hut]
  · intro u
    by_cases hut : u = t
    · rw [hut, setTd_td_self, hi]
    · rw [setTd_td_of_ne _ _ hut]

theorem sameWaits_schedSetPriorityInternal (t p : ℕ) :
    SameWaits k (k.schedSetPriorityInternal t p) := by
  obtain ⟨c, hc⟩ := k.schedSetPriorityInternal_td_self t p
  refine ⟨by simp, by simp, ?_, ?_⟩
  · intro u
    by_cases hut : u = t
    · rw [hut, hc]
    · rw [schedSetPriorityInternal_td_of_ne _ _ hut]
  · intro u
    by_cases hut : u = t
    · rw [hut, hc]
    · rw [schedSetPriorityInternal_td_of_ne _ _ hut]

theorem schedSetPriorityInternal_myQueue (t p u : ℕ) :
    ((k.schedSetPriorityInternal t p).td u).myQueue = if u = t then p else (k.td u).myQueue := by
  by_cases hut : u = t
  · obtain ⟨c, hc⟩ := k.schedSetPriorityInternal_td_self t p
    rw [if_pos hut, hut, hc]
  · rw [if_neg hut, schedSetPriorityInternal_td_of_ne _ _ hut]

theorem sameWaits_schedBoostPriorityInternal (t p : ℕ) :
    SameWaits k (k.schedBoostPriorityInternal t p) :=
  SameWaits.trans (sameWaits_setTd (t := t)
    (d := { k.td t with priorityBoosted := true, boosted := (k.td t).boosted + 1 }) rfl rfl)
    (sameWaits_schedSetPriorityInternal t p)

theorem schedBoostPriorityInternal_myQueue (t p u : ℕ) :
    ((k.schedBoostPriorityInternal t p).td u).myQueue = if u = t then p else (k.td u).myQueue := by
  unfold schedBoostPriorityInternal
  rw [schedSetPriorityInternal_myQueue]
  by_cases hut : u = t
  · rw [if_pos hut, if_pos hut]
  · rw [if_neg hut, if_neg hut, setTd_td_of_ne _ _ hut]

theorem sameWaits_schedUnboostPriorityInternal (t n : ℕ) :
    SameWaits k (k.schedUnboostPriorityInternal t n) := by
  unfold schedUnboostPriorityInternal
  simp only
  split_ifs
  · exact sameWaits_setTd rfl rfl
  · exact SameWaits.trans (sameWaits_setTd (t := t)
      (d := { k.td t with boosted := 0, priorityBoosted := false }) rfl rfl)
      (sameWaits_schedSetPriorityInternal t _)
  · exact SameWaits.refl k

theorem schedUnboostPriorityInternal_td_of_ne {t u : ℕ} (n : ℕ) (h : u ≠ t) :
    (k.schedUnboostPriorityInternal t n).td u = k.td u := by
  unfold schedUnboostPriorityInternal
  simp only
  split_ifs
  · exact setTd_td_of_ne _ _ h
  · rw [schedSetPriorityInternal_td_of_ne _ _ h, setTd_td_of_ne _ _ h]
  · rfl

theorem sameWaits_setHomePriority (t p : ℕ) : SameWaits k (k.setHomePriority t p) := by
  have hhome : SameWaits k (k.setTd t { k.td t with homeQueue := p }) := sameWaits_setTd rfl rfl
  unfold setHomePriority
  simp only
  split_ifs
  · exact hhome
  · exact hhome.trans (sameWaits_schedSetPriorityInternal t p)

theorem setHomePriority_myQueue (t p u : ℕ) :
    ((k.setHomePriority t p).td u).myQueue =
      if u = t then k.newPriorityOf t p else (k.td u).myQueue := by
  unfold setHomePriority newPriorityOf
  simp only
  by_cases hut : u = t
  · split_ifs
    · rw [hut, setTd_td_self]
    · rw [schedSetPriorityInternal_myQueue, if_pos hut]
  · split_ifs
    · rw [setTd_td_of_ne _ _ hut]
    · rw [schedSetPriorityInternal_myQueue, if_neg hut, setTd_td_of_ne _ _ hut]

theorem schedYield_td_of_ne {u : ℕ} (h : u ≠ k.activePtr) : k.schedYield.td u = k.td u :=
  taskReady_td_of_ne _ h

theorem schedYield_myQueue (u : ℕ) : (k.schedYield.td u).myQueue = (k.td u).myQueue := by
  by_cases hut : u = k.activePtr
  · rw [hut, schedYield, taskReady_td_self]
    rfl
  · rw [schedYield_td_of_ne hut]

theorem sameWaits_schedYield (h : (k.td k.activePtr).state = .ready) :
    SameWaits k k.schedYield := by
  refine ⟨rfl, rfl, ?_, ?_⟩
  · intro u
    by_cases hut : u = k.activePtr
    · rw [hut, schedYield, taskReady_td_self, h]
    · rw [schedYield_td_of_ne hut]
  · intro u
    by_cases hut : u = k.activePtr
    · rw [hut, schedYield, taskReady_td_self]
      rfl
    · rw [schedYield_td_of_ne hut]

section Blocking

variable (byPriority : Bool) (t : ℕ) (state : TaskState) (q : ℕ)

theorem blockOn_activePtr : (k.blockOn byPriority t state q).activePtr = k.activePtr := by
  cases byPriority <;> rfl

theorem blockOn_td_self :
    (k.blockOn byPriority t state q).td t = { k.td t with state := state, info := q } := by
  cases byPriority
  · exact k.waitOn_td_self t q state
  · exact Function.update_self _ _ _

variable {t} in
theorem blockOn_td_of_ne {u : ℕ} (h : u ≠ t) :
    (k.blockOn byPriority t state q).td u = k.td u := by
  cases byPriority
  · exact k.waitOn_td_of_ne q state h
  · exact Function.update_of_ne h _ _

theorem blockOn_myQueue (u : ℕ) :
    ((k.blockOn byPriority t state q).td u).myQueue = (k.td u).myQueue := by
  by_cases hut : u = t
  · rw [hut, blockOn_td_self]
  · rw [blockOn_td_of_ne _ _ _ hut]

/-- The queue after the task has been put on it. -/
theorem blockOn_queues :
    (k.blockOn byPriority t state q).queues = Function.update k.queues q
      (if byPriority then
        (k.queues q).orderedInsert (fun a b => (k.td a).myQueue < (k.td b).myQueue) t
      else k.queues q ++ [t]) := by
  cases byPriority
  · rfl
  · have hmy : ∀ u, ((k.setTd t { k.td t with state := state, info := q }).td u).myQueue =
        (k.td u).myQueue := by
      intro u
      by_cases hut : u = t
      · rw [hut, setTd_td_self]
      · rw [setTd_td_of_ne _ _ hut]
    simp only [blockOn, schedInsertPriorityqInternal, unlink_td, unlink_queues, setTd_queues, hmy,
      if_true]

theorem dequeueReady_activePtr : (k.dequeueReady q t).activePtr = k.activePtr := rfl

theorem dequeueReady_queues :
    (k.dequeueReady q t).queues = Function.update k.queues q ((k.queues q).erase t) := rfl

variable {t} in
theorem dequeueReady_td_of_ne {u : ℕ} (h : u ≠ t) : (k.dequeueReady q t).td u = k.td u :=
  taskReady_td_of_ne _ h

theorem dequeueReady_state_self : ((k.dequeueReady q t).td t).state = .ready := by
  rw [dequeueReady, taskReady_td_self]

end Blocking

end KernelData

namespace WaitInv

variable {k k' : KernelData} {t q : ℕ}

theorem congr (i : WaitInv k) (h : KernelData.SameWaits k k') : WaitInv k' := by
  constructor
  · intro t q
    rw [h.queues, h.state, h.info]
    exact i.mem t q
  · rw [h.queues]
    exact i.nodup

/-- A ready task is on no queue of waiting tasks. -/
theorem notMem (i : WaitInv k) (h : (k.td t).state = .ready) (q : ℕ) : t ∉ k.queues q := by
  rw [i.mem, TaskState.not_isWaiting_ready h]
  simp

theorem dispatch (i : WaitInv k) (u : ℕ) : WaitInv (k.dispatch u) := ⟨i.mem, i.nodup⟩

/-- A task goes to wait on the queue, in whatever place. -/
theorem blockOn (i : WaitInv k) (h : (k.td t).state = .ready) {state : TaskState}
    (hs : state.isWaiting) (q : ℕ) (byPriority : Bool) :
    WaitInv (k.blockOn byPriority t state q) := by
  have hnot := i.notMem h
  have hmem : ∀ u, u ∈ (if byPriority then
      (k.queues q).orderedInsert (fun a b => (k.td a).myQueue < (k.td b).myQueue) t
      else k.queues q ++ [t]) ↔ u = t ∨ u ∈ k.queues q := by
    intro u
    cases byPriority
    · simp [or_comm]
    · simp
  constructor
  · intro u p
    rw [KernelData.blockOn_queues]
    by_cases hp : p = q
    · subst hp
      rw [Function.update_self, hmem]
      by_cases hut : u = t
      · rw [hut, KernelData.blockOn_td_self]
        simp [hs]
      · rw [KernelData.blockOn_td_of_ne _ _ _ hut, i.mem]
        simp [hut]
    · rw [Function.update_of_ne hp]
      by_cases hut : u = t
      · rw [hut, KernelData.blockOn_td_self]
        simp [hnot p, Ne.symm hp]
      · rw [KernelData.blockOn_td_of_ne _ _ _ hut, i.mem]
  · intro p
    rw [KernelData.blockOn_queues]
    by_cases hp : p = q
    · subst hp
      rw [Function.update_self]
      cases byPriority
      · simp only [Bool.false_eq_true, if_false]
        rw [← List.concat_eq_append]
        exact (i.nodup p).concat (hnot p)
      · exact List.nodup_orderedInsert (i.nodup p) (hnot p)
    · rw [Function.update_of_ne hp]
      exact i.nodup p

/-- A waiting task is queued again, by its priority. -/
theorem requeue (i : WaitInv k) (h : t ∈ k.queues q) :
    WaitInv ((k.queueRemove q t).schedInsertPriorityqInternal q t) := by
  have hqueues : ((k.queueRemove q t).schedInsertPriorityqInternal q t).queues =
      Function.update k.queues q (((k.queues q).erase t).orderedInsert
        (fun a b => (k.td a).myQueue < (k.td b).myQueue) t) := by
    simp only [KernelData.schedInsertPriorityqInternal, KernelData.queueRemove,
      Function.update_self, Function.update_idem]
  constructor
  · intro u p
    rw [hqueues]
    refine Iff.trans ?_ (i.mem u p)
    by_cases hp : p = q
    · subst hp
      rw [Function.update_self, List.mem_orderedInsert, (i.nodup p).mem_erase_iff]
      constructor
      · rintro (rfl | hm)
        · exact h
        · exact hm.2
      · intro hm
        by_cases hut : u = t
        · exact Or.inl hut
        · exact Or.inr ⟨hut, hm⟩
    · rw [Function.update_of_ne hp]
  · intro p
    rw [hqueues]
    by_cases hp : p = q
    · subst hp
      rw [Function.update_self]
      exact List.nodup_orderedInsert ((i.nodup p).erase t) (i.nodup p).not_mem_erase
    · rw [Function.update_of_ne hp]
      exact i.nodup p

/-- A task leaves its queue and becomes ready. -/
theorem dequeueReady (i : WaitInv k) (h : t ∈ k.queues q) : WaitInv (k.dequeueReady q t) := by
  constructor
  · intro u p
    rw [KernelData.dequeueReady_queues]
    by_cases hut : u = t
    · have hr : ((k.dequeueReady q t).td u).state = .ready := by
        rw [hut]
        exact KernelData.dequeueReady_state_self t q
      rw [TaskState.not_isWaiting_ready hr]
      simp only [Bool.false_eq_true, false_and, iff_false]
      by_cases hp : p = q
      · subst hp
        rw [Function.update_self, hut, (i.nodup p).mem_erase_iff]
        simp
      · rw [Function.update_of_ne hp, hut]
        intro hm
        exact hp (((i.mem t p).mp hm).2.symm.trans ((i.mem t q).mp h).2)
    · rw [KernelData.dequeueReady_td_of_ne q hut]
      by_cases hp : p = q
      · subst hp
        rw [Function.update_self, List.mem_erase_of_ne hut, i.mem]
      · rw [Function.update_of_ne hp, i.mem]
  · intro p
    rw [KernelData.dequeueReady_queues]
    by_cases hp : p = q
    · subst hp
      rw [Function.update_self]
      exact (i.nodup p).erase t
    · rw [Function.update_of_ne hp]
      exact i.nodup p

end WaitInv

namespace KernelInv

variable {k : KernelData}

/-- `MY_QUEUE` of a task that is not ready may change. -/
theorem setMyQueue (i : KernelInv k) {t : ℕ} (h : (k.td t).state ≠ .ready) (p : ℕ) :
    KernelInv (k.setTd t { k.td t with myQueue := p }) := by
  have htd : ∀ u, (k.setTd t { k.td t with myQueue := p }).td u =
      { k.td u with myQueue := if u = t then p else (k.td u).myQueue } := by
    intro u
    by_cases hut : u = t
    · subst hut
      simp
    · rw [KernelData.setTd_td_of_ne _ _ hut]
      simp [hut]
  constructor
  · constructor
    · intro u r
      rw [KernelData.setTd_readyQ, i.ready.mem, htd]
      by_cases hut : u = t
      · subst hut
        simp [h]
      · simp [hut]
    · exact i.ready.nodup
  · constructor
    · intro u q
      rw [KernelData.setTd_queues, i.wait.mem, htd]
    · exact i.wait.nodup
  · constructor
    · intro u
      rw [KernelData.setTd_timeoutQueue, i.timeout.mem, htd]
    · exact i.timeout.nodup
    · intro u
      rw [htd]
      exact i.timeout.state u
    · refine List.Pairwise.imp_of_mem ?_ i.timeout.sorted
      intro a b _ _ hab
      rw [htd, htd]
      exact hab

theorem schedSetPriorityInternal (i : KernelInv k) (t p : ℕ) :
    KernelInv (k.schedSetPriorityInternal t p) := by
  unfold KernelData.schedSetPriorityInternal
  simp only [KernelData.setTd_td_self]
  split_ifs with h
  · apply i.rotate h.1
    exact h.2
  · apply i.setMyQueue
    intro hs
    have hnot := i.notMem_timeout hs
    rw [i.timeout.mem] at hnot
    exact h ⟨hs, by simpa using hnot⟩

end KernelInv
end Mqx.Sched
