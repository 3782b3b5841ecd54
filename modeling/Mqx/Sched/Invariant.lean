import Mqx.Sched.Kernel

/-!
# Queues agree with the task descriptors

`STATE`, the timeout bit, `MY_QUEUE` and `INFO` of a task say on which queues it is. The
invariant states that the queues agree with them, that no task is on a queue twice, and
that the timeout queue is in order. It has one part for each kind of queue.
-/

namespace Mqx.Sched

/-- The ready queues hold exactly the ready tasks, each on the queue it names. -/
structure ReadyInv (k : KernelData) : Prop where
  mem : ∀ t p, t ∈ k.readyQ p ↔ (k.td t).state = .ready ∧ (k.td t).myQueue = p
  nodup : ∀ p, (k.readyQ p).Nodup

/-- The queues of waiting tasks hold exactly the waiting tasks, each on the queue it names. -/
structure WaitInv (k : KernelData) : Prop where
  mem : ∀ t q, t ∈ k.queues q ↔ (k.td t).state.isWaiting ∧ (k.td t).info = q
  nodup : ∀ q, (k.queues q).Nodup

/-- The timeout queue holds the tasks with the timeout bit, by increasing time. -/
structure TimeoutInv (k : KernelData) : Prop where
  mem : ∀ t, t ∈ k.timeoutQueue ↔ (k.td t).onTimeoutQ
  nodup : k.timeoutQueue.Nodup
  state : ∀ t, (k.td t).onTimeoutQ → (k.td t).state = .blocked ∨ (k.td t).state.isOnAuxQueue
  sorted : k.timeoutQueue.Pairwise fun t u => (k.td t).timeout ≤ (k.td u).timeout

/-- Every queue agrees with the task descriptors. -/
structure KernelInv (k : KernelData) : Prop where
  ready : ReadyInv k
  wait : WaitInv k
  timeout : TimeoutInv k

theorem TaskState.not_isWaiting_ready {s : TaskState} (h : s = .ready) : s.isWaiting = false := by
  rw [h]
  rfl

theorem TaskState.isWaiting_of_isOnAuxQueue {s : TaskState} (h : s.isOnAuxQueue) : s.isWaiting := by
  cases s <;> first | rfl | simp [isOnAuxQueue] at h

/-- The states that a task on the timeout queue can be in. -/
theorem TaskState.timed_ne_ready {s : TaskState} (h : s = .blocked ∨ s.isOnAuxQueue) :
    s ≠ .ready := by
  rintro rfl
  simp [isOnAuxQueue] at h

theorem TaskState.timed_isOnAuxQueue {s : TaskState} (h : s = .blocked ∨ s.isOnAuxQueue)
    (hw : s.isWaiting) : s.isOnAuxQueue := by
  rcases h with rfl | h
  · simp [isWaiting] at hw
  · exact h

theorem TaskState.ne_ready {s : TaskState} (h : s.isWaiting) : s ≠ .ready := by
  rintro rfl
  simp [isWaiting] at h

namespace KernelInv

variable {k k' : KernelData} {t q : ℕ}

/-- A ready task is on no queue of waiting tasks. -/
theorem notMem_queue (i : KernelInv k) (h : (k.td t).state = .ready) (q : ℕ) :
    t ∉ k.queues q := by
  rw [i.wait.mem, TaskState.not_isWaiting_ready h]
  simp

theorem notMem_timeout (i : KernelInv k) (h : (k.td t).state = .ready) : t ∉ k.timeoutQueue := by
  rw [i.timeout.mem]
  exact fun ho => TaskState.timed_ne_ready (i.timeout.state t ho) h

theorem notMem_ready (i : KernelInv k) (h : (k.td t).state ≠ .ready) (p : ℕ) : t ∉ k.readyQ p := by
  rw [i.ready.mem]
  exact fun hm => h hm.1

/-- A task that waits on one queue is on no other one. -/
theorem eq_of_mem_queue (i : KernelInv k) {q' : ℕ} (h : t ∈ k.queues q) (h' : t ∈ k.queues q') :
    q = q' :=
  ((i.wait.mem t q).mp h).2.symm.trans ((i.wait.mem t q').mp h').2

theorem isWaiting (i : KernelInv k) (h : t ∈ k.queues q) : (k.td t).state.isWaiting :=
  ((i.wait.mem t q).mp h).1

theorem ne_ready (i : KernelInv k) (h : t ∈ k.queues q) : (k.td t).state ≠ .ready :=
  TaskState.ne_ready (i.isWaiting h)

/-- Fields that name no queue do not matter. -/
theorem congr (i : KernelInv k) (hr : k'.readyQ = k.readyQ) (hq : k'.queues = k.queues)
    (ht : k'.timeoutQueue = k.timeoutQueue) (hstate : ∀ t, (k'.td t).state = (k.td t).state)
    (hmy : ∀ t, (k'.td t).myQueue = (k.td t).myQueue) (hinfo : ∀ t, (k.td t).state.isWaiting →
      (k'.td t).info = (k.td t).info) (hon : ∀ t, (k'.td t).onTimeoutQ = (k.td t).onTimeoutQ)
    (htime : ∀ t ∈ k.timeoutQueue, (k'.td t).timeout = (k.td t).timeout) : KernelInv k' := by
  constructor
  · constructor
    · intro t p
      rw [hr, hstate, hmy]
      exact i.ready.mem t p
    · rw [hr]
      exact i.ready.nodup
  · constructor
    · intro t q
      rw [hq, hstate, i.wait.mem]
      exact and_congr_right fun hw => by rw [hinfo t hw]
    · rw [hq]
      exact i.wait.nodup
  · constructor
    · intro t
      rw [ht, hon]
      exact i.timeout.mem t
    · rw [ht]
      exact i.timeout.nodup
    · intro t
      rw [hon, hstate]
      exact i.timeout.state t
    · rw [ht]
      refine List.Pairwise.imp_of_mem ?_ i.timeout.sorted
      intro a b ha hb hab
      rw [htime a ha, htime b hb]
      exact hab

end KernelInv

/-! ## Operations on the ready queues -/

namespace ReadyInv

variable {k : KernelData} {t : ℕ}

/-- A task that becomes ready, when it was on no ready queue. -/
theorem taskReady (i : ReadyInv k) (h : (k.td t).state ≠ .ready) : ReadyInv (k.taskReady t) := by
  have hnot : ∀ p, t ∉ k.readyQ p := by
    intro p hp
    exact h ((i.mem t p).mp hp).1
  constructor
  · intro u p
    have hu := i.mem u p
    have ht := hnot p
    simp only [KernelData.taskReady, Function.update_apply]
    by_cases hut : u = t
    · subst hut
      by_cases hp : p = (k.td u).myQueue
      · subst hp
        simp
      · simp [hp, ht, Ne.symm hp]
    · by_cases hp : p = (k.td t).myQueue
      · subst hp
        simp [hut, hu]
      · simp [hp, hut, hu]
  · intro p
    simp only [KernelData.taskReady, Function.update_apply]
    split_ifs with hp
    · subst hp
      rw [← List.concat_eq_append]
      exact (i.nodup _).concat (hnot _)
    · exact i.nodup p

/-- A task that leaves its ready queue, when its descriptor says so. -/
theorem unlink (i : ReadyInv k) {d : Td} (h : d.state ≠ .ready) :
    ReadyInv ((k.setTd t d).unlink t) := by
  constructor
  · intro u p
    simp only [KernelData.unlink, KernelData.setTd, (i.nodup p).mem_erase_iff, i.mem,
      Function.update_apply]
    by_cases hut : u = t <;> simp [hut, h]
  · intro p
    exact (i.nodup p).erase t

end ReadyInv

namespace KernelInv

variable {k : KernelData} {t q : ℕ}

/-- A ready task goes to wait. -/
theorem waitOn (i : KernelInv k) (h : (k.td t).state = .ready) {state : TaskState}
    (hs : state.isWaiting) (q : ℕ) : KernelInv (k.waitOn t state q) := by
  have hq := i.notMem_queue h
  have ht := i.notMem_timeout h
  have hr := i.ready.unlink (t := t) (d := { k.td t with state := state, info := q })
    (TaskState.ne_ready hs)
  constructor
  · exact ⟨hr.mem, hr.nodup⟩
  · constructor
    · intro u p
      have hum := i.wait.mem u p
      have htq := hq p
      simp only [KernelData.waitOn, KernelData.enqueue, KernelData.unlink, KernelData.setTd,
        Function.update_apply]
      by_cases hut : u = t
      · subst hut
        by_cases hp : p = q
        · subst hp
          simp [hs]
        · simp [hp, htq, Ne.symm hp]
      · by_cases hp : p = q
        · subst hp
          simp [hut, hum]
        · simp [hp, hut, hum]
    · intro p
      simp only [KernelData.waitOn, KernelData.enqueue, KernelData.unlink, KernelData.setTd,
        Function.update_apply]
      split_ifs with hp
      · rw [← List.concat_eq_append]
        exact (i.wait.nodup q).concat (hq q)
      · exact i.wait.nodup p
  · have htd : ∀ u, u ≠ t → (k.waitOn t state q).td u = k.td u := fun u hu =>
      Function.update_of_ne hu _ _
    constructor
    · intro u
      by_cases hut : u = t
      · subst hut
        simpa [KernelData.waitOn, KernelData.enqueue, KernelData.unlink, KernelData.setTd] using
          i.timeout.mem u
      · rw [htd u hut]
        exact i.timeout.mem u
    · exact i.timeout.nodup
    · intro u
      by_cases hut : u = t
      · subst hut
        intro ho
        rw [KernelData.waitOn_td_self] at ho
        exact absurd ((i.timeout.mem u).mpr ho) ht
      · rw [htd u hut]
        exact i.timeout.state u
    · refine List.Pairwise.imp_of_mem ?_ i.timeout.sorted
      intro a b ha hb hab
      rw [htd a (by rintro rfl; exact ht ha), htd b (by rintro rfl; exact ht hb)]
      exact hab

/-- A ready task blocks without a queue. -/
theorem block (i : KernelInv k) (h : (k.td t).state = .ready) {d : Td} (hs : d.state = .blocked)
    (ho : d.onTimeoutQ = false) : KernelInv ((k.setTd t d).unlink t) := by
  have hq := i.notMem_queue h
  have ht := i.notMem_timeout h
  have htd : ∀ u, u ≠ t → ((k.setTd t d).unlink t).td u = k.td u := fun u hu =>
    Function.update_of_ne hu _ _
  have htd' : ((k.setTd t d).unlink t).td t = d := Function.update_self _ _ _
  constructor
  · exact i.ready.unlink (by rw [hs]; decide)
  · constructor
    · intro u p
      by_cases hut : u = t
      · subst hut
        rw [htd', hs]
        simpa [TaskState.isWaiting] using hq p
      · rw [htd u hut]
        exact i.wait.mem u p
    · exact i.wait.nodup
  · constructor
    · intro u
      by_cases hut : u = t
      · subst hut
        rw [htd', ho]
        simpa using ht
      · rw [htd u hut]
        exact i.timeout.mem u
    · exact i.timeout.nodup
    · intro u
      by_cases hut : u = t
      · subst hut
        rw [htd', ho]
        simp
      · rw [htd u hut]
        exact i.timeout.state u
    · refine List.Pairwise.imp_of_mem ?_ i.timeout.sorted
      intro a b ha hb hab
      rw [htd a (by rintro rfl; exact ht ha), htd b (by rintro rfl; exact ht hb)]
      exact hab

/-- A task that is not ready is put on the timeout queue. -/
theorem timeDelayInternal (i : KernelInv k)
    (h : (k.td t).state = .blocked ∨ (k.td t).state.isOnAuxQueue)
    (ho : (k.td t).onTimeoutQ = false) (fifo : Bool) :
    KernelInv (k.timeDelayInternal fifo t) := by
  have hr := i.notMem_ready (TaskState.timed_ne_ready h)
  have ht : t ∉ k.timeoutQueue := by
    rw [i.timeout.mem, ho]
    simp
  have htd : ∀ u, u ≠ t → (k.timeDelayInternal fifo t).td u = k.td u := fun u hu =>
    Function.update_of_ne hu _ _
  have htd' : (k.timeDelayInternal fifo t).td t = { k.td t with onTimeoutQ := true } :=
    Function.update_self _ _ _
  have hready : (k.timeDelayInternal fifo t).readyQ = k.readyQ := by
    funext p
    exact List.erase_of_not_mem (hr p)
  constructor
  · constructor
    · intro u p
      rw [hready]
      by_cases hut : u = t
      · subst hut
        rw [htd']
        exact i.ready.mem u p
      · rw [htd u hut]
        exact i.ready.mem u p
    · rw [hready]
      exact i.ready.nodup
  · constructor
    · intro u p
      by_cases hut : u = t
      · subst hut
        rw [htd']
        exact i.wait.mem u p
      · rw [htd u hut]
        exact i.wait.mem u p
    · exact i.wait.nodup
  · constructor
    · intro u
      have hmem : u ∈ (k.timeDelayInternal fifo t).timeoutQueue ↔ u = t ∨ u ∈ k.timeoutQueue :=
        List.mem_orderedInsert _
      rw [hmem]
      by_cases hut : u = t
      · subst hut
        simp
      · rw [htd u hut]
        simpa [hut] using i.timeout.mem u
    · exact List.nodup_orderedInsert i.timeout.nodup ht
    · intro u
      by_cases hut : u = t
      · subst hut
        rw [htd']
        exact fun _ => h
      · rw [htd u hut]
        exact i.timeout.state u
    · have htime : ∀ u, ((k.timeDelayInternal fifo t).td u).timeout = (k.td u).timeout := by
        intro u
        by_cases hut : u = t
        · subst hut
          rw [htd']
        · rw [htd u hut]
      simp only [htime]
      refine List.pairwise_orderedInsert i.timeout.sorted ?_ ?_ ?_
      · intro b _ c _ hb hbc
        unfold KernelData.DelayEnqueuePolicy at hb
        split_ifs at hb <;> omega
      · intro b _ hb
        unfold KernelData.DelayEnqueuePolicy at hb
        split_ifs at hb <;> omega
      · intro b _ hb
        unfold KernelData.DelayEnqueuePolicy at hb
        split_ifs at hb <;> omega

/-- The task leaves its ready queue once, however often it is unlinked. -/
theorem timeDelayInternal_unlink (i : KernelInv k) (d : Td) (fifo : Bool) :
    (k.setTd t d).timeDelayInternal fifo t =
      ((k.setTd t d).unlink t).timeDelayInternal fifo t := by
  have herase : ∀ p, ((k.readyQ p).erase t).erase t = (k.readyQ p).erase t := by
    intro p
    apply List.erase_of_not_mem
    rw [(i.ready.nodup p).mem_erase_iff]
    simp
  simp only [KernelData.timeDelayInternal, KernelData.unlink, KernelData.setTd, herase]
  rfl

/-- A ready task delays itself. -/
theorem delay (i : KernelInv k) (h : (k.td t).state = .ready) {d : Td} (hs : d.state = .blocked)
    (ho : d.onTimeoutQ = false) (fifo : Bool) :
    KernelInv ((k.setTd t d).timeDelayInternal fifo t) := by
  rw [i.timeDelayInternal_unlink]
  have htd : ((k.setTd t d).unlink t).td t = d := Function.update_self _ _ _
  apply (i.block h hs ho).timeDelayInternal
  · rw [htd]
    exact Or.inl hs
  · rw [htd]
    exact ho

/-- A task that has left the queue it waited on and the timeout queue becomes ready. -/
theorem taskReady {k' : KernelData} (i : KernelInv k) (h : (k.td t).state ≠ .ready)
    (hr : k'.readyQ = k.readyQ) (hq : ∀ q, k'.queues q = (k.queues q).erase t)
    (ht : k'.timeoutQueue = k.timeoutQueue.erase t) (htd : ∀ u, u ≠ t → k'.td u = k.td u)
    (hs : (k'.td t).state ≠ .ready) : KernelInv (k'.taskReady t) := by
  have hready : ReadyInv k' := by
    constructor
    · intro u p
      rw [hr, i.ready.mem]
      by_cases hut : u = t
      · subst hut
        simp [h, hs]
      · rw [htd u hut]
    · rw [hr]
      exact i.ready.nodup
  have htd' : ∀ u, u ≠ t → (k'.taskReady t).td u = k.td u := fun u hu =>
    (k'.taskReady_td_of_ne hu).trans (htd u hu)
  constructor
  · exact hready.taskReady hs
  · constructor
    · intro u p
      rw [KernelData.taskReady_queues, hq, (i.wait.nodup p).mem_erase_iff]
      by_cases hut : u = t
      · subst hut
        simp [TaskState.isWaiting]
      · rw [htd' u hut]
        simpa [hut] using i.wait.mem u p
    · intro p
      rw [KernelData.taskReady_queues, hq]
      exact (i.wait.nodup p).erase t
  · constructor
    · intro u
      rw [KernelData.taskReady_timeoutQueue, ht, i.timeout.nodup.mem_erase_iff]
      by_cases hut : u = t
      · subst hut
        simp
      · rw [htd' u hut]
        simpa [hut] using i.timeout.mem u
    · rw [KernelData.taskReady_timeoutQueue, ht]
      exact i.timeout.nodup.erase t
    · intro u
      by_cases hut : u = t
      · subst hut
        simp
      · rw [htd' u hut]
        exact i.timeout.state u
    · rw [KernelData.taskReady_timeoutQueue, ht]
      refine List.Pairwise.imp_of_mem ?_ (i.timeout.sorted.sublist (List.erase_sublist))
      intro a b ha hb hab
      rw [i.timeout.nodup.mem_erase_iff] at ha hb
      rw [htd' a ha.1, htd' b hb.1]
      exact hab

/-- Erasing a task from the queue it waits on, seen from all queues. -/
theorem queueRemove_queues (h : ∀ q', t ∈ k.queues q' → q' = q) (q' : ℕ) :
    (k.queueRemove q t).queues q' = (k.queues q').erase t := by
  simp only [KernelData.queueRemove, Function.update_apply]
  split_ifs with hq
  · rw [hq]
  · exact (List.erase_of_not_mem fun hm => hq (h q' hm)).symm

theorem timeDequeue_timeoutQueue (i : KernelInv k) (t : ℕ) :
    (k.timeDequeue t).timeoutQueue = k.timeoutQueue.erase t := by
  unfold KernelData.timeDequeue
  split_ifs with h
  · rfl
  · exact (List.erase_of_not_mem fun hm => h ((i.timeout.mem t).mp hm)).symm

/-- A waiting task is activated. -/
theorem activate (i : KernelInv k) (h : t ∈ k.queues q) : KernelInv (k.activate q t) := by
  have hs := i.ne_ready h
  have hq := queueRemove_queues (k := k) (q := q) fun q' hq' => i.eq_of_mem_queue hq' h
  unfold KernelData.activate
  apply i.taskReady hs
  · simp
  · intro q'
    simpa using hq q'
  · simp only [KernelData.setTd_timeoutQueue]
    unfold KernelData.timeDequeue
    split_ifs with ho
    · rfl
    · exact (List.erase_of_not_mem fun hm => ho ((i.timeout.mem t).mp hm)).symm
  · intro u hu
    rw [KernelData.setTd_td_of_ne _ _ hu, KernelData.timeDequeue_td_of_ne _ hu,
      KernelData.queueRemove_td]
  · simpa using hs

/-- A task whose time has come becomes ready. -/
theorem wakeExpired (i : KernelInv k) (h : t ∈ k.timeoutQueue) : KernelInv (k.wakeExpired t) := by
  have htimed := i.timeout.state t ((i.timeout.mem t).mp h)
  have hs := TaskState.timed_ne_ready htimed
  unfold KernelData.wakeExpired
  simp only
  split_ifs with hx
  · apply i.taskReady hs
    · simp
    · exact queueRemove_queues fun q' hq' => ((i.wait.mem t q').mp hq').2.symm
    · rfl
    · exact fun u _ => rfl
    · exact hs
  · apply i.taskReady hs
    · rfl
    · intro q
      exact (List.erase_of_not_mem fun hm =>
        hx (TaskState.timed_isOnAuxQueue htimed (i.isWaiting hm))).symm
    · rfl
    · exact fun u _ => rfl
    · exact hs

/-- A ready task goes to the end of its ready queue. -/
theorem rotate (i : KernelInv k) (h : (k.td t).state = .ready) {d : Td}
    (ho : d.onTimeoutQ = false) :
    KernelInv (((k.setTd t d).unlink t).taskReady t) := by
  obtain ⟨k', hk'⟩ : ∃ k', (k.setTd t { d with state := .blocked }).unlink t = k' := ⟨_, rfl⟩
  have hi : KernelInv k' := hk' ▸ i.block h rfl ho
  have htd : k'.td t = { d with state := .blocked } := by
    rw [← hk', KernelData.unlink_td, KernelData.setTd_td_self]
  -- the state is overwritten before anything reads it
  have heq : ((k.setTd t d).unlink t).taskReady t = k'.taskReady t := by
    rw [← hk']
    simp [KernelData.taskReady, KernelData.unlink, KernelData.setTd]
  rw [heq]
  have hb : (k'.td t).state = .blocked := by rw [htd]
  have hne : (k'.td t).state ≠ .ready := by
    rw [hb]
    decide
  apply hi.taskReady hne rfl
  · intro q
    refine (List.erase_of_not_mem fun hm => ?_).symm
    have hw := hi.isWaiting hm
    simp [hb, TaskState.isWaiting] at hw
  · refine (List.erase_of_not_mem fun hm => ?_).symm
    have hw := (hi.timeout.mem t).mp hm
    rw [htd] at hw
    simp [ho] at hw
  · exact fun u _ => rfl
  · exact hne

end KernelInv
end Mqx.Sched
