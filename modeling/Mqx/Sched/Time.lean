import Mqx.Sched.Invariant
import Mathlib.Logic.Relation

/-!
# The timeout queue and the tick

One tick is described by what it does to each task descriptor and to each queue: the loop
over the timeout queue takes a prefix of it, and since the queue is sorted the prefix is
the set of the tasks whose time has come. The result for whole runs follows: the
operations that put tasks on the timeout queue and take them off it may come in any order.
-/

namespace Mqx.Sched

namespace KernelData

variable (k : KernelData)

/-- The task is on the timeout queue and its time is not later than the kernel's. -/
def expired (t : ℕ) : Bool := (k.td t).onTimeoutQ && decide ((k.td t).timeout ≤ k.time)

end KernelData

/-- What the loop of `_time_notify_kernel` does. -/
structure WakeSpec (k k' : KernelData) : Prop where
  inv : KernelInv k'
  activePtr : k'.activePtr = k.activePtr
  time : k'.time = k.time
  timeoutQueue : k'.timeoutQueue = k.timeoutQueue.filter fun t => !k.expired t
  queues : ∀ q, k'.queues q = (k.queues q).filter fun t => !k.expired t
  td : ∀ t, k'.td t = if k.expired t then
    { k.td t with state := .ready, onTimeoutQ := false, currentTimeSlice := 0 } else k.td t

namespace KernelInv

variable {k : KernelData} {t : ℕ}

theorem expired_iff (i : KernelInv k) :
    k.expired t = true ↔ t ∈ k.timeoutQueue ∧ (k.td t).timeout ≤ k.time := by
  simp [KernelData.expired, i.timeout.mem]

/-- Behind a task whose time has not come there is none whose time has come. -/
theorem not_expired_of_head (i : KernelInv k) {l : List ℕ} (hl : k.timeoutQueue = t :: l)
    (ht : ¬(k.td t).timeout ≤ k.time) (u : ℕ) : k.expired u = false := by
  by_contra hu
  rw [Bool.not_eq_false, i.expired_iff] at hu
  have hsorted := i.timeout.sorted
  rw [hl] at hu hsorted
  rcases List.mem_cons.mp hu.1 with rfl | hmem
  · exact ht hu.2
  · have hle := List.rel_of_pairwise_cons hsorted hmem
    omega

theorem wakeExpired_td_self : (k.wakeExpired t).td t =
    { k.td t with state := .ready, onTimeoutQ := false, currentTimeSlice := 0 } := by
  unfold KernelData.wakeExpired
  simp only
  split_ifs <;> simp

theorem wakeExpired_td_of_ne {u : ℕ} (h : u ≠ t) : (k.wakeExpired t).td u = k.td u := by
  unfold KernelData.wakeExpired
  simp only
  split_ifs
  · rw [KernelData.taskReady_td_of_ne _ h]
    rfl
  · rw [KernelData.taskReady_td_of_ne _ h]

theorem wakeExpired_queues (i : KernelInv k) (h : t ∈ k.timeoutQueue) (q : ℕ) :
    (k.wakeExpired t).queues q = (k.queues q).erase t := by
  have htimed := i.timeout.state t ((i.timeout.mem t).mp h)
  unfold KernelData.wakeExpired
  simp only
  split_ifs with hx
  · exact queueRemove_queues (fun q' hq' => ((i.wait.mem t q').mp hq').2.symm) q
  · exact (List.erase_of_not_mem fun hm =>
      hx (TaskState.timed_isOnAuxQueue htimed (i.isWaiting hm))).symm

theorem wakeExpired_frame : (k.wakeExpired t).timeoutQueue = k.timeoutQueue.erase t ∧
    (k.wakeExpired t).time = k.time ∧ (k.wakeExpired t).activePtr = k.activePtr := by
  unfold KernelData.wakeExpired
  simp only
  split_ifs <;> exact ⟨rfl, rfl, rfl⟩

/-- After one step of the loop the other tasks are as far from their time as before. -/
theorem expired_wakeExpired (u : ℕ) :
    (k.wakeExpired t).expired u = (k.expired u && !decide (u = t)) := by
  unfold KernelData.expired
  rw [wakeExpired_frame.2.1]
  by_cases hut : u = t
  · subst hut
    rw [wakeExpired_td_self]
    simp
  · rw [wakeExpired_td_of_ne hut]
    simp [hut]

/-- A list without repetitions loses the first task of the loop and then the others. -/
theorem filter_erase {l : List ℕ} (hl : l.Nodup) (ht : k.expired t = true) :
    ((l.erase t).filter fun u => !(k.wakeExpired t).expired u) =
      l.filter fun u => !k.expired u := by
  rw [hl.erase_eq_filter, List.filter_filter]
  apply List.filter_congr
  intro u _
  rw [expired_wakeExpired]
  by_cases hut : u = t
  · subst hut
    simp [ht]
  · simp [hut]

/-- The loop takes exactly the tasks whose time has come. -/
theorem wakeLoop (l : List ℕ) : ∀ {k : KernelData}, KernelInv k → k.timeoutQueue = l →
    WakeSpec k (k.wakeLoop l) := by
  induction l with
  | nil =>
    intro k i hl
    have hnone : ∀ u, k.expired u = false := by
      intro u
      by_contra hu
      rw [Bool.not_eq_false, i.expired_iff, hl] at hu
      simp at hu
    exact ⟨i, rfl, rfl, by simp [KernelData.wakeLoop, hnone],
      by simp [KernelData.wakeLoop, hnone], by simp [KernelData.wakeLoop, hnone]⟩
  | cons t l ih =>
    intro k i hl
    rw [KernelData.wakeLoop]
    split_ifs with ht
    · -- the rest of the loop runs from the state that the first step leaves
      have hmem : t ∈ k.timeoutQueue := by
        rw [hl]
        exact List.mem_cons_self
      have hexp : k.expired t = true := i.expired_iff.mpr ⟨hmem, ht⟩
      obtain ⟨htq, htime, hact⟩ := wakeExpired_frame (k := k) (t := t)
      have hrest : (k.wakeExpired t).timeoutQueue = l := by
        rw [htq, hl, List.erase_cons_head]
      have hspec := ih (i.wakeExpired hmem) hrest
      constructor
      · exact hspec.inv
      · exact hspec.activePtr.trans hact
      · exact hspec.time.trans htime
      · rw [hspec.timeoutQueue, htq]
        exact filter_erase i.timeout.nodup hexp
      · intro q
        rw [hspec.queues, i.wakeExpired_queues hmem]
        exact filter_erase (i.wait.nodup q) hexp
      · intro u
        rw [hspec.td, expired_wakeExpired]
        by_cases hut : u = t
        · subst hut
          rw [wakeExpired_td_self]
          simp [hexp]
        · rw [wakeExpired_td_of_ne hut]
          simp [hut]
    · have hnone := i.not_expired_of_head hl ht
      exact ⟨i, rfl, rfl, by simp [hnone], by simp [hnone], by simp [hnone]⟩

end KernelInv

/-- What one tick does, given the state after the time has advanced. The slice counter of
a task descriptor is the only other field that it touches. -/
structure TickSpec (k k' : KernelData) : Prop where
  inv : KernelInv k'
  activePtr : k'.activePtr = k.activePtr
  time : k'.time = k.time
  timeoutQueue : k'.timeoutQueue = k.timeoutQueue.filter fun t => !k.expired t
  queues : ∀ q, k'.queues q = (k.queues q).filter fun t => !k.expired t
  td : ∀ t, ∃ c, k'.td t =
    { k.td t with
      state := if k.expired t then .ready else (k.td t).state
      onTimeoutQ := (k.td t).onTimeoutQ && !k.expired t
      currentTimeSlice := c }

/-- A task that is charged for its time slice runs, so it is ready. -/
def SliceReady (k : KernelData) : Prop :=
  (k.td k.activePtr).timeSliceTask → (k.td k.activePtr).state = .ready

namespace KernelInv

variable {k : KernelData}

theorem advanceTime (i : KernelInv k) (hw : ℕ) : KernelInv (k.advanceTime hw) :=
  i.congr rfl rfl rfl (fun _ => rfl) (fun _ => rfl) (fun _ _ => rfl) (fun _ => rfl) (fun _ _ => rfl)

/-- The time slice changes ready queues and the slice counter of the active task. -/
theorem timeSliceExpire (i : KernelInv k) (hs : SliceReady k) :
    KernelInv k.timeSliceExpire ∧ k.timeSliceExpire.activePtr = k.activePtr ∧
      k.timeSliceExpire.time = k.time ∧ k.timeSliceExpire.timeoutQueue = k.timeoutQueue ∧
      k.timeSliceExpire.queues = k.queues ∧
      ∀ t, ∃ c, k.timeSliceExpire.td t = { k.td t with currentTimeSlice := c } := by
  have hsame : ∀ t, ∃ c, k.td t = { k.td t with currentTimeSlice := c } := fun t => ⟨_, rfl⟩
  unfold KernelData.timeSliceExpire
  simp only
  split_ifs with hslice hexp
  · have hready := hs hslice
    have hout : (k.td k.activePtr).onTimeoutQ = false := by
      have hnot := i.notMem_timeout hready
      rw [i.timeout.mem] at hnot
      simpa using hnot
    refine ⟨i.rotate hready hout, rfl, rfl, rfl, rfl, fun t => ?_⟩
    by_cases ht : t = k.activePtr
    · subst ht
      rw [KernelData.taskReady_td_self, KernelData.unlink_td, KernelData.setTd_td_self]
      exact ⟨0, by rw [← hready, ← hout]⟩
    · rw [KernelData.taskReady_td_of_ne _ ht, KernelData.unlink_td,
        KernelData.setTd_td_of_ne _ _ ht]
      exact hsame t
  · have htd : ∀ t, ∃ c, (k.setTd k.activePtr { k.td k.activePtr with
        currentTimeSlice := ((k.td k.activePtr).currentTimeSlice + 1) % 2 ^ 64 }).td t =
          { k.td t with currentTimeSlice := c } := by
      intro t
      by_cases ht : t = k.activePtr
      · subst ht
        rw [KernelData.setTd_td_self]
        exact ⟨_, rfl⟩
      · rw [KernelData.setTd_td_of_ne _ _ ht]
        exact hsame t
    refine ⟨?_, rfl, rfl, rfl, rfl, htd⟩
    refine i.congr rfl rfl rfl ?_ ?_ ?_ ?_ ?_
    · intro t
      obtain ⟨c, hc⟩ := htd t
      rw [hc]
    · intro t
      obtain ⟨c, hc⟩ := htd t
      rw [hc]
    · intro t _
      obtain ⟨c, hc⟩ := htd t
      rw [hc]
    · intro t
      obtain ⟨c, hc⟩ := htd t
      rw [hc]
    · intro t _
      obtain ⟨c, hc⟩ := htd t
      rw [hc]
  · exact ⟨i, rfl, rfl, rfl, rfl, hsame⟩

/-- One tick wakes the tasks whose time has come and leaves the others. -/
theorem timeNotifyKernel (i : KernelInv k) (hs : SliceReady k) (hw : ℕ) :
    TickSpec (k.advanceTime hw) (k.timeNotifyKernel hw) := by
  have hwake := wakeLoop _ (i.advanceTime hw) rfl
  have hslice : SliceReady ((k.advanceTime hw).wakeLoop (k.advanceTime hw).timeoutQueue) := by
    intro ht
    rw [hwake.activePtr, hwake.td] at ht ⊢
    split_ifs at ht ⊢
    · rfl
    · exact hs ht
  obtain ⟨hinv, hact, htime, htq, hq, htd⟩ := hwake.inv.timeSliceExpire hslice
  constructor
  · exact hinv
  · exact hact.trans hwake.activePtr
  · exact htime.trans hwake.time
  · exact htq.trans hwake.timeoutQueue
  · intro q
    exact (congrFun hq q).trans (hwake.queues q)
  · intro t
    obtain ⟨c, hc⟩ := htd t
    refine ⟨c, ?_⟩
    unfold KernelData.timeNotifyKernel
    rw [hc, hwake.td]
    split_ifs with hx <;> simp [hx]

end KernelInv

/-! ## Runs -/

/-- The queues are in order and the active task is ready. Interrupts stay disabled from the
moment a task blocks until another one has been dispatched, so that no operation sees
anything else. -/
structure Running (k : KernelData) : Prop where
  inv : KernelInv k
  active : (k.td k.activePtr).state = .ready

/-- The dispatcher makes a ready task the active one. -/
def KernelData.dispatch (k : KernelData) (t : ℕ) : KernelData := { k with activePtr := t }

/-- The operations on the timeout queue, in any order. The active task delays itself, with
or without a queue to wait on, and another one is dispatched; a waiting task is activated
before its time, or `_time_dequeue` and `_task_ready` end the delay of a task; the tick
comes; another ready task is dispatched. -/
inductive TimeStep (fifo : Bool) : KernelData → KernelData → Prop
  | delay {k k' : KernelData} (ticks u : ℕ) :
      k' = (k.setTd k.activePtr { k.td k.activePtr with
        timeout := ticks, state := .blocked }).timeDelayInternal fifo k.activePtr →
      (k'.td u).state = .ready → TimeStep fifo k (k'.dispatch u)
  | wait {k k' : KernelData} (state : TaskState) (q u : ℕ) : state.isWaiting →
      k' = k.waitOn k.activePtr state q →
      (k'.td u).state = .ready → TimeStep fifo k (k'.dispatch u)
  | waitTimed {k k' : KernelData} (state : TaskState) (q ticks u : ℕ) : state.isOnAuxQueue →
      k' = ((k.setTd k.activePtr { k.td k.activePtr with timeout := ticks }).waitOn
        k.activePtr state q).timeDelayInternal fifo k.activePtr →
      (k'.td u).state = .ready → TimeStep fifo k (k'.dispatch u)
  | activate {k : KernelData} (q t : ℕ) : t ∈ k.queues q → TimeStep fifo k (k.activate q t)
  | taskReady {k : KernelData} (t : ℕ) : (k.td t).state = .blocked →
      TimeStep fifo k ((k.timeDequeue t).taskReady t)
  | tick {k : KernelData} (hw : ℕ) : TimeStep fifo k (k.timeNotifyKernel hw)
  | dispatch {k : KernelData} (u : ℕ) : (k.td u).state = .ready → TimeStep fifo k (k.dispatch u)

namespace KernelInv

variable {k k' : KernelData} {t : ℕ}

/-- A field that only the timeout queue reads may change while the task is ready. -/
theorem setTimeout (i : KernelInv k) (h : (k.td t).state = .ready) (ticks : ℕ) :
    KernelInv (k.setTd t { k.td t with timeout := ticks }) := by
  have htd : ∀ u, (k.setTd t { k.td t with timeout := ticks }).td u =
      { k.td u with timeout := if u = t then ticks else (k.td u).timeout } := by
    intro u
    by_cases hut : u = t
    · subst hut
      simp
    · rw [KernelData.setTd_td_of_ne _ _ hut]
      simp [hut]
  refine i.congr rfl rfl rfl ?_ ?_ ?_ ?_ ?_
  · intro u
    rw [htd]
  · intro u
    rw [htd]
  · intro u _
    rw [htd]
  · intro u
    rw [htd]
  · intro u hu
    have hut : u ≠ t := by
      rintro rfl
      exact i.notMem_timeout h hu
    rw [htd, if_neg hut]

/-- A ready task goes to wait, for a limited time. -/
theorem waitOn_timed (i : KernelInv k) (h : (k.td t).state = .ready) {state : TaskState}
    (hs : state.isOnAuxQueue) (q ticks : ℕ) (fifo : Bool) :
    KernelInv (((k.setTd t { k.td t with timeout := ticks }).waitOn t state q).timeDelayInternal
      fifo t) := by
  have hout : (k.td t).onTimeoutQ = false := by
    have hnot := i.notMem_timeout h
    rw [i.timeout.mem] at hnot
    simpa using hnot
  have hready : ((k.setTd t { k.td t with timeout := ticks }).td t).state = .ready := by
    rw [KernelData.setTd_td_self]
    exact h
  have hwait := (i.setTimeout h ticks).waitOn hready (TaskState.isWaiting_of_isOnAuxQueue hs) q
  apply hwait.timeDelayInternal
  · rw [KernelData.waitOn_td_self]
    exact Or.inr hs
  · rw [KernelData.waitOn_td_self, KernelData.setTd_td_self]
    exact hout

/-- A task that waits on no queue becomes ready before its time. -/
theorem timeDequeue_taskReady (i : KernelInv k) (h : (k.td t).state = .blocked) :
    KernelInv ((k.timeDequeue t).taskReady t) := by
  have hne : (k.td t).state ≠ .ready := by
    rw [h]
    decide
  apply i.taskReady hne
  · simp
  · intro q
    rw [KernelData.timeDequeue_queues]
    refine (List.erase_of_not_mem fun hm => ?_).symm
    have hw := i.isWaiting hm
    simp [h, TaskState.isWaiting] at hw
  · exact i.timeDequeue_timeoutQueue t
  · intro u hu
    exact KernelData.timeDequeue_td_of_ne _ hu
  · rw [KernelData.timeDequeue_td_self]
    exact hne

theorem dispatch (i : KernelInv k) (u : ℕ) : KernelInv (k.dispatch u) :=
  i.congr rfl rfl rfl (fun _ => rfl) (fun _ => rfl) (fun _ _ => rfl) (fun _ => rfl) (fun _ _ => rfl)

/-- A ready task is once on its ready queue and on no other one. -/
theorem count_readyQ (i : KernelInv k) (h : (k.td t).state = .ready) (p : ℕ) :
    (k.readyQ p).count t = if p = (k.td t).myQueue then 1 else 0 := by
  split_ifs with hp
  · apply List.count_eq_one_of_mem (i.ready.nodup p)
    rw [i.ready.mem]
    exact ⟨h, hp.symm⟩
  · apply List.count_eq_zero_of_not_mem
    rw [i.ready.mem]
    exact fun hm => hp hm.2.symm

theorem mem_readyQ_iff (i : KernelInv k) : (∃ p, t ∈ k.readyQ p) ↔ (k.td t).state = .ready := by
  simp [i.ready.mem]

end KernelInv

/-- What a tick has to do: the tasks on the timeout queue whose time is not later than the
kernel's, and no others, become ready, each once. -/
structure TickMoves (k k' : KernelData) : Prop where
  stays : k'.timeoutQueue = k.timeoutQueue.filter fun t => k'.time < (k.td t).timeout
  moved : ∀ t ∈ k.timeoutQueue, (k.td t).timeout ≤ k'.time →
    (∀ p, t ∉ k.readyQ p) ∧ t ∉ k'.timeoutQueue ∧
      ∀ p, (k'.readyQ p).count t = if p = (k.td t).myQueue then 1 else 0
  others : ∀ t, ¬(t ∈ k.timeoutQueue ∧ (k.td t).timeout ≤ k'.time) →
    ((∃ p, t ∈ k'.readyQ p) ↔ ∃ p, t ∈ k.readyQ p)

theorem KernelInv.tickMoves {k : KernelData} (i : KernelInv k) (hs : SliceReady k) (hw : ℕ) :
    TickMoves k (k.timeNotifyKernel hw) := by
  have hspec := i.timeNotifyKernel hs hw
  have hexp : ∀ t, (k.advanceTime hw).expired t = true ↔
      t ∈ k.timeoutQueue ∧ (k.td t).timeout ≤ (k.timeNotifyKernel hw).time := by
    intro t
    rw [hspec.time]
    exact (i.advanceTime hw).expired_iff
  obtain ⟨k', hk'⟩ : ∃ k', k.timeNotifyKernel hw = k' := ⟨_, rfl⟩
  rw [hk'] at hspec hexp ⊢
  constructor
  · rw [hspec.timeoutQueue]
    apply List.filter_congr
    intro t ht
    have ht' : t ∈ k.timeoutQueue := ht
    have h := hexp t
    by_cases hx : (k.advanceTime hw).expired t = true
    · simpa [hx] using (h.mp hx).2
    · have hlt : ¬(k.td t).timeout ≤ k'.time := fun hle => hx (h.mpr ⟨ht', hle⟩)
      simpa [hx] using hlt
  · intro t ht hle
    have hx := (hexp t).mpr ⟨ht, hle⟩
    obtain ⟨c, hc⟩ := hspec.td t
    have hready : (k'.td t).state = .ready := by simp [hc, hx]
    have hmy : (k'.td t).myQueue = (k.td t).myQueue := by rw [hc]; rfl
    refine ⟨?_, ?_, ?_⟩
    · exact i.notMem_ready (TaskState.timed_ne_ready
        (i.timeout.state t ((i.timeout.mem t).mp ht)))
    · exact hspec.inv.notMem_timeout hready
    · intro p
      rw [hspec.inv.count_readyQ hready, hmy]
  · intro t ht
    rw [hspec.inv.mem_readyQ_iff, i.mem_readyQ_iff]
    obtain ⟨c, hc⟩ := hspec.td t
    have hx : (k.advanceTime hw).expired t = false := by
      rw [← hexp] at ht
      simpa using ht
    rw [hc, hx]
    rfl

namespace Running

variable {k k' : KernelData} {fifo : Bool}

theorem onTimeoutQ (r : Running k) : (k.td k.activePtr).onTimeoutQ = false := by
  have hnot := r.inv.notMem_timeout r.active
  rw [r.inv.timeout.mem] at hnot
  simpa using hnot

theorem sliceReady (r : Running k) : SliceReady k := fun _ => r.active

/-- A task that becomes ready leaves the active task ready. -/
theorem of_taskReady {t : ℕ} {k₀ : KernelData} (r : Running k) (hi : KernelInv (k₀.taskReady t))
    (hact : k₀.activePtr = k.activePtr) (htd : ∀ u, u ≠ t → k₀.td u = k.td u) :
    Running (k₀.taskReady t) := by
  refine ⟨hi, ?_⟩
  have hptr : (k₀.taskReady t).activePtr = k.activePtr := hact
  rw [hptr]
  by_cases ht : k.activePtr = t
  · rw [ht, KernelData.taskReady_td_self]
  · rw [KernelData.taskReady_td_of_ne _ ht, htd _ ht]
    exact r.active

theorem activate {q t : ℕ} (r : Running k) (h : t ∈ k.queues q) : Running (k.activate q t) := by
  apply r.of_taskReady (r.inv.activate h)
  · unfold KernelData.timeDequeue
    split_ifs <;> rfl
  · intro u hu
    rw [KernelData.setTd_td_of_ne _ _ hu, KernelData.timeDequeue_td_of_ne _ hu,
      KernelData.queueRemove_td]

theorem tick (r : Running k) (hw : ℕ) : Running (k.timeNotifyKernel hw) := by
  have hspec := r.inv.timeNotifyKernel r.sliceReady hw
  refine ⟨hspec.inv, ?_⟩
  rw [hspec.activePtr]
  obtain ⟨c, hc⟩ := hspec.td (k.advanceTime hw).activePtr
  rw [hc]
  have hready : ((k.advanceTime hw).td (k.advanceTime hw).activePtr).state = .ready := r.active
  simp [hready]

theorem timeStep (r : Running k) (h : TimeStep fifo k k') : Running k' := by
  cases h with
  | delay ticks u hk hu =>
    subst hk
    refine ⟨KernelInv.dispatch ?_ u, hu⟩
    apply r.inv.delay r.active
    · rfl
    · exact r.onTimeoutQ
  | wait state q u hs hk hu =>
    subst hk
    exact ⟨(r.inv.waitOn r.active hs q).dispatch u, hu⟩
  | waitTimed state q ticks u hs hk hu =>
    subst hk
    exact ⟨(r.inv.waitOn_timed r.active hs q ticks fifo).dispatch u, hu⟩
  | activate q t hm => exact r.activate hm
  | taskReady t hb =>
    apply r.of_taskReady (r.inv.timeDequeue_taskReady hb)
    · unfold KernelData.timeDequeue
      split_ifs <;> rfl
    · intro u hu
      exact KernelData.timeDequeue_td_of_ne _ hu
  | tick hw => exact r.tick hw
  | dispatch u hu => exact ⟨r.inv.dispatch u, hu⟩

theorem timeSteps (r : Running k) (h : Relation.ReflTransGen (TimeStep fifo) k k') :
    Running k' := by
  induction h with
  | refl => exact r
  | tail _ hstep ih => exact ih.timeStep hstep

end Running

/-- In every run the timeout queue stays sorted, and each tick moves exactly the tasks
whose time has come to their ready queues, each task once. -/
theorem timeoutQueue_sorted_and_tick_exact {fifo : Bool} {k k' : KernelData} (hr : Running k)
    (hrun : Relation.ReflTransGen (TimeStep fifo) k k') :
    (k'.timeoutQueue.Pairwise fun t u => (k'.td t).timeout ≤ (k'.td u).timeout) ∧
      ∀ hw, TickMoves k' (k'.timeNotifyKernel hw) := by
  have r := hr.timeSteps hrun
  exact ⟨r.inv.timeout.sorted, fun hw => r.inv.tickMoves r.sliceReady hw⟩

/-- A kernel with `n` tasks that have been started, of different priorities; the first of
them is active. -/
def bootKernel (n : ℕ) : KernelData where
  td t :=
    { state := if 0 < t ∧ t ≤ n then .ready else .blocked
      onTimeoutQ := false
      info := 0
      myQueue := t
      homeQueue := t
      boosted := 0
      priorityBoosted := false
      timeout := 0
      lweventBits := 0
      allBitsWanted := false
      timeSliceTask := false
      preemptionDisabled := false
      currentTimeSlice := 0
      timeSlice := 0 }
  readyQ p := if 0 < p ∧ p ≤ n then [p] else []
  currentReadyQ := 1
  activePtr := 1
  timeoutQueue := []
  queues _ := []
  time := 0
  hwTicks := 0
  hwTicksPerTick := 1

theorem bootKernel_running {n : ℕ} (hn : 0 < n) : Running (bootKernel n) := by
  refine ⟨⟨⟨?_, ?_⟩, ⟨?_, ?_⟩, ⟨?_, ?_, ?_, ?_⟩⟩, ?_⟩
  · intro t p
    by_cases ht : 0 < t ∧ t ≤ n
    · by_cases hp : 0 < p ∧ p ≤ n
      · simp [bootKernel, ht, hp]
      · simp only [bootKernel, ht, hp, if_false, List.not_mem_nil, false_iff]
        rintro ⟨-, rfl⟩
        exact hp ht
    · by_cases hp : 0 < p ∧ p ≤ n
      · simp only [bootKernel, ht, hp, and_self, if_true, if_false, List.mem_singleton]
        constructor
        · rintro rfl
          exact absurd hp ht
        · simp
      · simp [bootKernel, ht, hp]
  · intro p
    simp only [bootKernel]
    split_ifs <;> simp
  · intro t q
    simp only [bootKernel]
    split_ifs <;> simp [TaskState.isWaiting]
  · exact fun q => List.nodup_nil
  · simp [bootKernel]
  · exact List.nodup_nil
  · simp [bootKernel]
  · exact List.Pairwise.nil
  · simpa [bootKernel, Nat.pos_iff_ne_zero] using hn

/-- Of two tasks that delay themselves, the one with the earlier time is first on the
queue, and the next tick moves only it. -/
theorem timeoutQueue_bootKernel : ∃ k', Relation.ReflTransGen (TimeStep false) (bootKernel 3) k' ∧
    k'.timeoutQueue = [2, 1] ∧ (k'.timeNotifyKernel 0).timeoutQueue = [1] ∧
    TickMoves k' (k'.timeNotifyKernel 0) := by
  obtain ⟨k₁, hk₁⟩ : ∃ k₁, ((bootKernel 3).setTd 1 { (bootKernel 3).td 1 with
      timeout := 5, state := .blocked }).timeDelayInternal false 1 = k₁ := ⟨_, rfl⟩
  obtain ⟨k₂, hk₂⟩ : ∃ k₂, ((k₁.dispatch 2).setTd 2 { (k₁.dispatch 2).td 2 with
      timeout := 1, state := .blocked }).timeDelayInternal false 2 = k₂ := ⟨_, rfl⟩
  have hfirst : TimeStep false (bootKernel 3) (k₁.dispatch 2) :=
    .delay 5 2 hk₁.symm (by subst hk₁; decide)
  have hsecond : TimeStep false (k₁.dispatch 2) (k₂.dispatch 3) :=
    .delay 1 3 hk₂.symm (by subst hk₂ hk₁; decide)
  have hrun := (Relation.ReflTransGen.single hfirst).tail hsecond
  refine ⟨_, hrun, ?_, ?_,
    (timeoutQueue_sorted_and_tick_exact (bootKernel_running (by decide)) hrun).2 0⟩
  · subst hk₂ hk₁
    decide
  · subst hk₂ hk₁
    decide

end Mqx.Sched
