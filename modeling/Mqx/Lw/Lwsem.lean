import Mqx.Lw.Objects

/-!
# Lightweight semaphores

A call that has to wait is in two parts: what it does before the scheduler runs, and what
it returns once its task is active again. In between a post or the tick can make the task
ready. The system keeps, next to the state of the kernel, which calls are in between and
counts of what has happened; the invariant ties them to `VALUE`, `INFO` and the queues.
-/

namespace Mqx.Lw

open Mqx.Sched

namespace LwData

variable (s : LwData)

/-- Store to `VALUE`. -/
def setValue (sem : ℕ) (v : ℤ) : LwData := s.setLwsem sem { s.lwsem sem with value := v }

/-- The task that `_lwsem_post` activates. -/
def lwsemReleased (sem : ℕ) : Option ℕ :=
  if 0 ≤ (s.lwsem sem).value then (s.k.queues (tdQueue sem)).head? else none

/-- `_lwsem_post`. -/
def lwsemPost (sem : ℕ) : Status × LwData :=
  if (s.lwsem sem).valid ≠ lwsemValid then (.invalidLwsem, s)
  else
    match s.lwsemReleased sem with
    | some t => (.ok, { s with k := s.k.activate (tdQueue sem) t })
    | none => (.ok, s.setValue sem ((s.lwsem sem).value + 1))

/-- `_lwsem_poll`. -/
def lwsemPoll (sem : ℕ) : Bool × LwData :=
  if (s.lwsem sem).valid ≠ lwsemValid then (false, s)
  else if (s.lwsem sem).value ≤ 0 then (false, s)
  else (true, s.setValue sem ((s.lwsem sem).value - 1))

/-- `_lwsem_wait` and the timed waits, up to the call of the scheduler. Without a result the
task has blocked. -/
def lwsemWait (fifo : Bool) (sem : ℕ) (timeout : Option ℕ) : Option Status × LwData :=
  if (s.lwsem sem).valid ≠ lwsemValid then (some .invalidLwsem, s)
  else if (s.lwsem sem).value ≤ 0 then
    (none, { s with k := s.k.waitFor fifo s.k.activePtr .lwsemBlocked (tdQueue sem) timeout })
  else (some .ok, s.setValue sem ((s.lwsem sem).value - 1))

/-- What a call returns after its task has been made ready. -/
def lwsemResult (sem : ℕ) (timed : Bool) : Status :=
  if (s.lwsem sem).valid ≠ lwsemValid then .invalidLwsem
  else if timed ∧ (s.k.td s.k.activePtr).info ≠ 0 then .lwsemWaitTimeout
  else .ok

end LwData

/-- The kernel, the calls whose task has blocked, and what has happened: for each call
whether a post has given it the semaphore and when its task began to wait, for each
semaphore how many posts and how many acquisitions there were. -/
structure SemSys where
  lw : LwData
  call : ℕ → Option (ℕ × Bool)
  granted : ℕ → Bool
  arrival : ℕ → ℕ
  clock : ℕ
  posts : ℕ → ℕ
  acquisitions : ℕ → ℕ

namespace SemSys

variable (c : SemSys)

def post (sem : ℕ) : SemSys :=
  let r := c.lw.lwsemPost sem
  if r.1 = .ok then
    match c.lw.lwsemReleased sem with
    | some t =>
      { c with
        lw := r.2
        granted := Function.update c.granted t true
        posts := Function.update c.posts sem (c.posts sem + 1)
        acquisitions := Function.update c.acquisitions sem (c.acquisitions sem + 1) }
    | none => { c with lw := r.2, posts := Function.update c.posts sem (c.posts sem + 1) }
  else { c with lw := r.2 }

def poll (sem : ℕ) : SemSys :=
  let r := c.lw.lwsemPoll sem
  { c with
    lw := r.2
    acquisitions :=
      if r.1 then Function.update c.acquisitions sem (c.acquisitions sem + 1)
      else c.acquisitions }

def wait (fifo : Bool) (sem : ℕ) (timeout : Option ℕ) : SemSys :=
  let r := c.lw.lwsemWait fifo sem timeout
  let t := c.lw.k.activePtr
  match r.1 with
  | none =>
    { c with
      lw := r.2
      call := Function.update c.call t (some (sem, timeout.isSome))
      granted := Function.update c.granted t false
      arrival := Function.update c.arrival t c.clock
      clock := c.clock + 1 }
  | some .ok =>
    { c with
      lw := r.2
      acquisitions := Function.update c.acquisitions sem (c.acquisitions sem + 1) }
  | some _ => { c with lw := r.2 }

def tick (hw : ℕ) : SemSys := { c with lw := { c.lw with k := c.lw.k.timeNotifyKernel hw } }

def dispatch (u : ℕ) : SemSys := { c with lw := { c.lw with k := c.lw.k.dispatch u } }

/-- The call of the active task returns. -/
def finish : SemSys := { c with call := Function.update c.call c.lw.k.activePtr none }

end SemSys

/-- The calls on semaphores, by tasks and interrupt handlers, and the ticks, in any order.
A task makes a call only when its last one has returned; a task that has blocked is
followed by another one at once. -/
inductive SemStep (fifo : Bool) : SemSys → SemSys → Prop
  | post {c : SemSys} (sem : ℕ) : SemStep fifo c (c.post sem)
  | poll {c : SemSys} (sem : ℕ) : SemStep fifo c (c.poll sem)
  | wait {c : SemSys} (sem : ℕ) (timeout : Option ℕ) : c.call c.lw.k.activePtr = none →
      (c.lw.lwsemWait fifo sem timeout).1 ≠ none → SemStep fifo c (c.wait fifo sem timeout)
  | block {c : SemSys} (sem : ℕ) (timeout : Option ℕ) (u : ℕ) : c.call c.lw.k.activePtr = none →
      (c.lw.lwsemWait fifo sem timeout).1 = none →
      ((c.wait fifo sem timeout).lw.k.td u).state = .ready →
      SemStep fifo c ((c.wait fifo sem timeout).dispatch u)
  | tick {c : SemSys} (hw : ℕ) : SemStep fifo c (c.tick hw)
  | dispatch {c : SemSys} (u : ℕ) : (c.lw.k.td u).state = .ready → SemStep fifo c (c.dispatch u)
  | finish {c : SemSys} : c.call c.lw.k.activePtr ≠ none → SemStep fifo c c.finish

/-! ## The invariant -/

/-- What `INFO`, the queues and the counts say about the calls on one semaphore that was
created with count `n`. A call whose task has blocked waits, or has been given the
semaphore, or has timed out. -/
structure SemInv (sem : ℕ) (n : ℤ) (c : SemSys) : Prop where
  running : Running c.lw.k
  conserved : n + c.posts sem = (c.lw.lwsem sem).value + c.acquisitions sem
  value_le : c.lw.k.queues (tdQueue sem) ≠ [] → (c.lw.lwsem sem).value ≤ 0
  sorted : (c.lw.k.queues (tdQueue sem)).Pairwise fun t u => c.arrival t < c.arrival u
  arrival_lt : ∀ t ∈ c.lw.k.queues (tdQueue sem), c.arrival t < c.clock
  called : ∀ t ∈ c.lw.k.queues (tdQueue sem), ∃ timed, c.call t = some (sem, timed)
  pending : ∀ t timed, c.call t = some (sem, timed) →
    (t ∈ c.lw.k.queues (tdQueue sem) ∧ c.granted t = false ∧
      ((c.lw.k.td t).onTimeoutQ → timed)) ∨
    ((c.lw.k.td t).state = .ready ∧ c.granted t = true ∧ (c.lw.k.td t).info = 0) ∨
    ((c.lw.k.td t).state = .ready ∧ c.granted t = false ∧ timed ∧
      (c.lw.k.td t).info = tdQueue sem)
  valid : (c.lw.lwsem sem).valid = lwsemValid

namespace SemInv

variable {sem : ℕ} {n : ℤ} {c : SemSys}

/-- A change of the count of one semaphore, with the counter that goes with it. -/
theorem setValue (i : SemInv sem n c) {sem' : ℕ} {v : ℤ} {posts acquisitions : ℕ → ℕ}
    (hcount : n + posts sem = (if sem = sem' then v else (c.lw.lwsem sem).value) +
      acquisitions sem)
    (hle : sem = sem' → c.lw.k.queues (tdQueue sem) ≠ [] → v ≤ 0) :
    SemInv sem n { c with
      lw := c.lw.setValue sem' v, posts := posts, acquisitions := acquisitions } := by
  have hv : ((c.lw.setValue sem' v).lwsem sem).value =
      if sem = sem' then v else (c.lw.lwsem sem).value := by
    by_cases hs : sem = sem'
    · subst hs
      simp [LwData.setValue, LwData.setLwsem]
    · simp [LwData.setValue, LwData.setLwsem, hs]
  constructor
  · exact i.running
  · rw [hv]
    exact hcount
  · intro hq
    rw [hv]
    split_ifs with hs
    · exact hle hs hq
    · exact i.value_le hq
  · exact i.sorted
  · exact i.arrival_lt
  · exact i.called
  · exact i.pending
  · by_cases hs : sem = sem'
    · subst hs
      simpa [LwData.setValue, LwData.setLwsem] using i.valid
    · simpa [LwData.setValue, LwData.setLwsem, hs] using i.valid

/-- The first waiting task is given the semaphore. -/
theorem activate (i : SemInv sem n c) {sem' t : ℕ} (ht : t ∈ c.lw.k.queues (tdQueue sem'))
    {posts acquisitions : ℕ → ℕ}
    (hcount : n + posts sem = (c.lw.lwsem sem).value + acquisitions sem) :
    SemInv sem n { c with
      lw := { c.lw with k := c.lw.k.activate (tdQueue sem') t }
      granted := Function.update c.granted t true
      posts := posts
      acquisitions := acquisitions } := by
  have hsub : ∀ u, u ∈ (c.lw.k.activate (tdQueue sem') t).queues (tdQueue sem) →
      u ∈ c.lw.k.queues (tdQueue sem) := by
    intro u hu
    rw [KernelData.activate_queues] at hu
    by_cases hs : tdQueue sem = tdQueue sem'
    · rw [hs, Function.update_self] at hu
      rw [hs]
      exact List.mem_of_mem_erase hu
    · rwa [Function.update_of_ne hs] at hu
  constructor
  · exact i.running.activate ht
  · exact hcount
  · intro hq
    obtain ⟨u, hu⟩ := List.exists_mem_of_ne_nil _ hq
    exact i.value_le (List.ne_nil_of_mem (hsub u hu))
  · have hsublist : ((c.lw.k.activate (tdQueue sem') t).queues (tdQueue sem)).Sublist
        (c.lw.k.queues (tdQueue sem)) := by
      rw [KernelData.activate_queues]
      by_cases hs : tdQueue sem = tdQueue sem'
      · rw [hs, Function.update_self]
        exact List.erase_sublist
      · rw [Function.update_of_ne hs]
    exact i.sorted.sublist hsublist
  · exact fun u hu => i.arrival_lt u (hsub u hu)
  · exact fun u hu => i.called u (hsub u hu)
  · intro u timed hu
    by_cases hut : u = t
    · subst hut
      refine Or.inr (Or.inl ?_)
      simp [KernelData.activate_td_self]
    · simp only [KernelData.activate_td_of_ne _ _ hut, Function.update_of_ne hut]
      refine (i.pending u timed hu).imp_left fun h => ⟨?_, h.2⟩
      rw [KernelData.activate_queues]
      by_cases hs : tdQueue sem = tdQueue sem'
      · rw [hs, Function.update_self, List.mem_erase_of_ne hut, ← hs]
        exact h.1
      · rw [Function.update_of_ne hs]
        exact h.1
  · exact i.valid

theorem post (i : SemInv sem n c) (sem' : ℕ) : SemInv sem n (c.post sem') := by
  by_cases hv : (c.lw.lwsem sem').valid ≠ lwsemValid
  · simpa [SemSys.post, LwData.lwsemPost, hv] using i
  · cases hrel : c.lw.lwsemReleased sem' with
    | none =>
      simp only [SemSys.post, LwData.lwsemPost, if_neg hv, hrel, if_true]
      apply i.setValue
      · rcases eq_or_ne sem sem' with rfl | hs
        · have hc := i.conserved
          simp only [Function.update_self, if_true]
          push_cast
          omega
        · simpa [hs] using i.conserved
      · -- the count goes up only if nobody waits or it was negative
        rintro rfl hq
        have hle := i.value_le hq
        unfold LwData.lwsemReleased at hrel
        split_ifs at hrel with hpos
        · exact absurd (List.head?_eq_none_iff.mp hrel) hq
        · omega
    | some t =>
      simp only [SemSys.post, LwData.lwsemPost, if_neg hv, hrel, if_true]
      apply i.activate
      · unfold LwData.lwsemReleased at hrel
        split_ifs at hrel with hpos
        exact List.mem_of_head? hrel
      · rcases eq_or_ne sem sem' with rfl | hs
        · have hc := i.conserved
          simp only [Function.update_self]
          push_cast
          omega
        · simpa [hs] using i.conserved

theorem poll (i : SemInv sem n c) (sem' : ℕ) : SemInv sem n (c.poll sem') := by
  unfold SemSys.poll LwData.lwsemPoll
  split_ifs with hv hle
  · simpa using i
  · simpa using i
  · apply i.setValue
    · rcases eq_or_ne sem sem' with rfl | hs
      · have hc := i.conserved
        simp only [Function.update_self, if_true]
        push_cast
        omega
      · simpa [hs] using i.conserved
    · rintro rfl hq
      exact absurd (i.value_le hq) hle

/-- A wait that need not block. -/
theorem wait (i : SemInv sem n c) {fifo : Bool} {sem' : ℕ} {timeout : Option ℕ}
    (h : (c.lw.lwsemWait fifo sem' timeout).1 ≠ none) :
    SemInv sem n (c.wait fifo sem' timeout) := by
  unfold SemSys.wait
  unfold LwData.lwsemWait at h ⊢
  split_ifs at h ⊢ with hv hle
  · exact i
  · simp at h
  · apply i.setValue
    · rcases eq_or_ne sem sem' with rfl | hs
      · have hc := i.conserved
        simp only [Function.update_self, if_true]
        push_cast
        omega
      · simpa [hs] using i.conserved
    · rintro rfl hq
      exact absurd (i.value_le hq) hle

theorem dispatch (i : SemInv sem n c) {u : ℕ} (hu : (c.lw.k.td u).state = .ready) :
    SemInv sem n (c.dispatch u) :=
  ⟨i.running.dispatch hu, i.conserved, i.value_le, i.sorted, i.arrival_lt, i.called, i.pending,
    i.valid⟩

/-- A wait that blocks: the task is the last on the queue. -/
theorem block (i : SemInv sem n c) {fifo : Bool} {sem' : ℕ} {timeout : Option ℕ} {u : ℕ}
    (hcall : c.call c.lw.k.activePtr = none)
    (h : (c.lw.lwsemWait fifo sem' timeout).1 = none)
    (hu : ((c.wait fifo sem' timeout).lw.k.td u).state = .ready) :
    SemInv sem n ((c.wait fifo sem' timeout).dispatch u) := by
  have hle : (c.lw.lwsem sem').value ≤ 0 := by
    unfold LwData.lwsemWait at h
    split_ifs at h with hv hle
    exact hle
  have hwait : c.lw.lwsemWait fifo sem' timeout = (none, { c.lw with
      k := c.lw.k.waitFor fifo c.lw.k.activePtr .lwsemBlocked (tdQueue sem') timeout }) := by
    unfold LwData.lwsemWait at h ⊢
    split_ifs at h ⊢ with hv
    rfl
  simp only [SemSys.wait, hwait] at hu
  simp only [SemSys.wait, hwait, SemSys.dispatch]
  obtain ⟨t, ht⟩ : ∃ t, c.lw.k.activePtr = t := ⟨_, rfl⟩
  have hnot : ∀ q, t ∉ c.lw.k.queues q := fun q => ht ▸ i.running.notMem_queue q
  have hout : (c.lw.k.td t).onTimeoutQ = false := ht ▸ i.running.onTimeoutQ
  have hrun := i.running.waitFor (by rfl) (tdQueue sem') timeout fifo hu
  rw [ht] at hrun hcall
  simp only [ht]
  -- the tasks that were on the queue keep their places and their stamps
  have hmem : ∀ v, v ∈ (c.lw.k.waitFor fifo t .lwsemBlocked (tdQueue sem') timeout).queues
      (tdQueue sem) ↔ v ∈ c.lw.k.queues (tdQueue sem) ∨ (v = t ∧ sem = sem') := by
    intro v
    rw [KernelData.waitFor_queues]
    rcases eq_or_ne sem sem' with rfl | hs
    · simp
    · have hq : tdQueue sem ≠ tdQueue sem' := by
        unfold tdQueue
        omega
      simp [Function.update_of_ne hq, hs]
  have hne : ∀ v ∈ c.lw.k.queues (tdQueue sem), v ≠ t := by
    rintro v hv rfl
    exact hnot _ hv
  constructor
  · exact hrun
  · exact i.conserved
  · intro hq
    obtain ⟨v, hv⟩ := List.exists_mem_of_ne_nil _ hq
    rcases (hmem v).mp hv with hv | ⟨-, rfl⟩
    · exact i.value_le (List.ne_nil_of_mem hv)
    · exact hle
  · simp only [KernelData.dispatch_queues, KernelData.waitFor_queues]
    have hold : (c.lw.k.queues (tdQueue sem)).Pairwise fun v w =>
        Function.update c.arrival t c.clock v < Function.update c.arrival t c.clock w := by
      refine i.sorted.imp_of_mem ?_
      intro v w hv hw hvw
      rw [Function.update_of_ne (hne v hv), Function.update_of_ne (hne w hw)]
      exact hvw
    rcases eq_or_ne (tdQueue sem) (tdQueue sem') with hs | hs
    · rw [← hs, Function.update_self, List.pairwise_append]
      refine ⟨hold, List.pairwise_singleton _ _, ?_⟩
      intro v hv w hw
      rw [List.mem_singleton] at hw
      subst hw
      rw [Function.update_of_ne (hne v hv), Function.update_self]
      exact i.arrival_lt v hv
    · rw [Function.update_of_ne hs]
      exact hold
  · intro v hv
    rcases (hmem v).mp hv with hv | ⟨rfl, -⟩
    · simp only [Function.update_of_ne (hne v hv)]
      exact Nat.lt_succ_of_lt (i.arrival_lt v hv)
    · simp
  · intro v hv
    rcases (hmem v).mp hv with hv | ⟨rfl, rfl⟩
    · simp only [Function.update_of_ne (hne v hv)]
      exact i.called v hv
    · exact ⟨timeout.isSome, by simp⟩
  · intro v timed hv
    by_cases hvt : v = t
    · subst hvt
      simp only [Function.update_self, Option.some.injEq, Prod.mk.injEq] at hv
      obtain ⟨rfl, rfl⟩ := hv
      refine Or.inl ⟨(hmem v).mpr (Or.inr ⟨rfl, rfl⟩), by simp, ?_⟩
      simp [KernelData.waitFor_td_self, hout]
    · simp only [Function.update_of_ne hvt] at hv ⊢
      simp only [KernelData.dispatch_td, KernelData.waitFor_td_of_ne _ _ _ _ _ hvt]
      refine (i.pending v timed hv).imp_left fun h => ⟨?_, h.2⟩
      exact (hmem v).mpr (Or.inl h.1)
  · exact i.valid

/-- The tick releases the tasks whose time has come; none of them gets the semaphore. -/
theorem tick (i : SemInv sem n c) (hw : ℕ) : SemInv sem n (c.tick hw) := by
  have hspec := i.running.inv.timeNotifyKernel i.running.sliceReady hw
  have hsub : ∀ t, t ∈ (c.lw.k.timeNotifyKernel hw).queues (tdQueue sem) →
      t ∈ c.lw.k.queues (tdQueue sem) := by
    intro t ht
    rw [hspec.queues] at ht
    exact List.mem_of_mem_filter ht
  constructor
  · exact i.running.tick hw
  · exact i.conserved
  · intro hq
    obtain ⟨t, ht⟩ := List.exists_mem_of_ne_nil _ hq
    exact i.value_le (List.ne_nil_of_mem (hsub t ht))
  · simp only [SemSys.tick, hspec.queues]
    exact i.sorted.sublist List.filter_sublist
  · exact fun t ht => i.arrival_lt t (hsub t ht)
  · exact fun t ht => i.called t (hsub t ht)
  · intro t timed ht
    obtain ⟨s, hc⟩ := hspec.td t
    have hstate : ((c.lw.k.timeNotifyKernel hw).td t).state =
        if (c.lw.k.advanceTime hw).expired t then .ready else (c.lw.k.td t).state := by rw [hc]; rfl
    have hinfo : ((c.lw.k.timeNotifyKernel hw).td t).info = (c.lw.k.td t).info := by rw [hc]; rfl
    have hon : ((c.lw.k.timeNotifyKernel hw).td t).onTimeoutQ =
        ((c.lw.k.td t).onTimeoutQ && !(c.lw.k.advanceTime hw).expired t) := by rw [hc]; rfl
    simp only [SemSys.tick, hstate, hinfo, hon, hspec.queues]
    rcases i.pending t timed ht with ⟨hq, hg, ho⟩ | ⟨hr, hg, hi⟩ | ⟨hr, hg, htm, hi⟩
    · by_cases hx : (c.lw.k.advanceTime hw).expired t
      · have hxon := ((i.running.inv.advanceTime hw).expired_iff.mp hx).1
        refine Or.inr (Or.inr ⟨by simp [hx], hg, ?_, i.running.inv.info_of_mem hq⟩)
        exact ho ((i.running.inv.timeout.mem t).mp hxon)
      · refine Or.inl ⟨?_, hg, by simpa [hx] using ho⟩
        rw [List.mem_filter]
        exact ⟨hq, by simp [hx]⟩
    · exact Or.inr (Or.inl ⟨by simp [hr], hg, hi⟩)
    · exact Or.inr (Or.inr ⟨by simp [hr], hg, htm, hi⟩)
  · exact i.valid

theorem finish (i : SemInv sem n c) : SemInv sem n c.finish := by
  have hne : ∀ t ∈ c.lw.k.queues (tdQueue sem), t ≠ c.lw.k.activePtr := by
    rintro t ht rfl
    exact i.running.notMem_queue _ ht
  refine ⟨i.running, i.conserved, i.value_le, i.sorted, i.arrival_lt, ?_, ?_, i.valid⟩
  · intro t ht
    simp only [SemSys.finish, Function.update_of_ne (hne t ht)]
    exact i.called t ht
  · intro t timed ht
    by_cases hta : t = c.lw.k.activePtr
    · subst hta
      simp [SemSys.finish] at ht
    · simp only [SemSys.finish, Function.update_of_ne hta] at ht
      exact i.pending t timed ht

theorem step (i : SemInv sem n c) {fifo : Bool} {c' : SemSys} (h : SemStep fifo c c') :
    SemInv sem n c' := by
  cases h with
  | post sem' => exact i.post sem'
  | poll sem' => exact i.poll sem'
  | wait sem' timeout hcall hres => exact i.wait hres
  | block sem' timeout u hcall hres hu => exact i.block hcall hres hu
  | tick hw => exact i.tick hw
  | dispatch u hu => exact i.dispatch hu
  | finish hcall => exact i.finish

theorem steps (i : SemInv sem n c) {fifo : Bool} {c' : SemSys}
    (h : Relation.ReflTransGen (SemStep fifo) c c') : SemInv sem n c' := by
  induction h with
  | refl => exact i
  | tail _ hstep ih => exact ih.step hstep

end SemInv
/-- A semaphore that has been created with count `n` and not been used yet. -/
structure SemInit (sem : ℕ) (n : ℤ) (c : SemSys) : Prop where
  running : Running c.lw.k
  value : (c.lw.lwsem sem).value = n
  valid : (c.lw.lwsem sem).valid = lwsemValid
  tdQueue : c.lw.k.queues (tdQueue sem) = []
  call : ∀ t timed, c.call t ≠ some (sem, timed)
  posts : c.posts sem = 0
  acquisitions : c.acquisitions sem = 0

theorem SemInit.inv {sem : ℕ} {n : ℤ} {c : SemSys} (h : SemInit sem n c) : SemInv sem n c := by
  constructor
  · exact h.running
  · rw [h.value, h.posts, h.acquisitions]
  · exact fun hq => absurd h.tdQueue hq
  · rw [h.tdQueue]
    exact List.Pairwise.nil
  · simp [h.tdQueue]
  · simp [h.tdQueue]
  · exact fun t timed ht => absurd ht (h.call t timed)
  · exact h.valid

/-- What holds of a semaphore in every state. -/
structure SemSpec (sem : ℕ) (n : ℤ) (c : SemSys) : Prop where
  conserved : n + c.posts sem = (c.lw.lwsem sem).value + c.acquisitions sem
  waiting : c.lw.k.queues (tdQueue sem) ≠ [] → (c.lw.lwsem sem).value ≤ 0
  /-- A post releases the task that began to wait first. -/
  fifo : ∀ t, c.lw.lwsemReleased sem = some t →
    ∀ u ∈ c.lw.k.queues (tdQueue sem), u ≠ t → c.arrival t < c.arrival u
  /-- A task whose time has come is taken off both queues without a token. -/
  expired : ∀ hw, ∀ t ∈ c.lw.k.queues (tdQueue sem), t ∈ c.lw.k.timeoutQueue →
    (c.lw.k.td t).timeout ≤ (c.tick hw).lw.k.time →
    ((c.tick hw).lw.lwsem sem).value = (c.lw.lwsem sem).value ∧
      (c.tick hw).acquisitions sem = c.acquisitions sem ∧ (c.tick hw).granted t = false ∧
      t ∉ (c.tick hw).lw.k.queues (tdQueue sem) ∧ t ∉ (c.tick hw).lw.k.timeoutQueue
  /-- A call that has blocked succeeds if and only if a post gave it the semaphore. -/
  result : ∀ timed, c.call c.lw.k.activePtr = some (sem, timed) →
    (c.lw.lwsemResult sem timed = .ok ↔ c.granted c.lw.k.activePtr = true)

namespace SemInv

variable {sem : ℕ} {n : ℤ} {c : SemSys}

theorem fifo (i : SemInv sem n c) {t : ℕ} (ht : c.lw.lwsemReleased sem = some t) :
    ∀ u ∈ c.lw.k.queues (tdQueue sem), u ≠ t → c.arrival t < c.arrival u := by
  intro u hu hne
  unfold LwData.lwsemReleased at ht
  split_ifs at ht
  obtain ⟨l, hl⟩ := List.head?_eq_some_iff.mp ht
  have hsorted := i.sorted
  rw [hl] at hsorted hu
  rcases List.mem_cons.mp hu with rfl | hu
  · exact absurd rfl hne
  · exact List.rel_of_pairwise_cons hsorted hu

theorem expired (i : SemInv sem n c) (hw : ℕ) {t : ℕ} (hq : t ∈ c.lw.k.queues (tdQueue sem))
    (ht : t ∈ c.lw.k.timeoutQueue) (hle : (c.lw.k.td t).timeout ≤ (c.tick hw).lw.k.time) :
    c.granted t = false ∧ t ∉ (c.tick hw).lw.k.queues (tdQueue sem) ∧
      t ∉ (c.tick hw).lw.k.timeoutQueue := by
  have hspec := i.running.inv.timeNotifyKernel i.running.sliceReady hw
  have hx : (c.lw.k.advanceTime hw).expired t = true := by
    rw [(i.running.inv.advanceTime hw).expired_iff]
    refine ⟨ht, ?_⟩
    rw [← hspec.time]
    exact hle
  obtain ⟨timed, hcall⟩ := i.called t hq
  refine ⟨?_, ?_, ?_⟩
  · rcases i.pending t timed hcall with ⟨-, hg, -⟩ | ⟨hr, -, -⟩ | ⟨-, hg, -, -⟩
    · exact hg
    · exact absurd hr (i.running.inv.ne_ready hq)
    · exact hg
  · simp only [SemSys.tick, hspec.queues, List.mem_filter]
    simp [hx]
  · simp only [SemSys.tick, hspec.timeoutQueue, List.mem_filter]
    simp [hx]

theorem result (i : SemInv sem n c) {timed : Bool}
    (hcall : c.call c.lw.k.activePtr = some (sem, timed)) :
    c.lw.lwsemResult sem timed = .ok ↔ c.granted c.lw.k.activePtr = true := by
  unfold LwData.lwsemResult
  rw [if_neg (not_not_intro i.valid)]
  rcases i.pending _ timed hcall with ⟨hq, -, -⟩ | ⟨-, hg, hi⟩ | ⟨-, hg, htm, hi⟩
  · exact absurd hq (i.running.notMem_queue _)
  · simp [hg, hi]
  · have hne : (c.lw.k.td c.lw.k.activePtr).info ≠ 0 := by
      rw [hi]
      unfold tdQueue
      omega
    simp [hg, hne, htm]

theorem spec (i : SemInv sem n c) : SemSpec sem n c := by
  constructor
  · exact i.conserved
  · exact i.value_le
  · exact fun t ht => i.fifo ht
  · intro hw t hq ht hle
    exact ⟨rfl, rfl, i.expired hw hq ht hle⟩
  · exact fun timed hcall => i.result hcall

end SemInv

/-- Three tasks and a semaphore with one token. -/
def semBoot : SemSys where
  lw := ((bootLw 3).lwsemCreateInternal 0x100 1 false false).2
  call _ := none
  granted _ := false
  arrival _ := 0
  clock := 0
  posts _ := 0
  acquisitions _ := 0

theorem semBoot_init : SemInit 0x100 1 semBoot := by
  have hk : semBoot.lw.k = bootKernel 3 :=
    congrArg LwData.k (LwData.queueInit_eq_self _ (q := tdQueue 0x100) rfl)
  refine ⟨hk ▸ bootKernel_running (by decide), ?_, ?_, ?_, fun _ _ => nofun, rfl, rfl⟩
  · decide
  · decide
  · rw [hk]
    rfl

/-- One task takes the token, waits for another one and times out; a second task waits and
is released by the post. -/
def semBootRun : SemSys :=
  ((((((semBoot.wait false 0x100 none).wait false 0x100 (some 1)).dispatch 2).wait false 0x100
    none).dispatch 3).tick 0).post 0x100

end Mqx.Lw
