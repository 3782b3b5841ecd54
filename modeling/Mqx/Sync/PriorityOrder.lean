import Mqx.Library.WaitOrder
import Mqx.Sync.Mutex

/-!
# The order of waiting tasks

On a mutex with priority queueing, and on a task queue by priority, a task is inserted by
its priority of that moment. This module follows the priorities afterwards: which steps
change the priority of a task that already waits, and which of them queue it again.
-/

namespace Mqx.Sync

open Mqx.Sched Mqx.Library

namespace SyncData

/-- The queue is kept by priority. -/
def byPriority (s : SyncData) (q : ℕ) : Bool :=
  match s.object q with
  | .mutex m => decide (m.waitProtocol = .priorityQueueing)
  | .taskQueue byPriority => byPriority
  | .invalid => false

/-- The waiting tasks with their current priorities. -/
def waiters (s : SyncData) : Waiters ℕ ℕ where
  queue := s.k.queues
  prio t := (s.k.td t).myQueue

/-- The queues agree with the task descriptors, and the active task is ready. -/
structure Inv (s : SyncData) : Prop where
  wait : WaitInv s.k
  active : (s.k.td s.k.activePtr).state = .ready

variable {s s' : SyncData}

theorem Inv.placed (i : s.Inv) : s.waiters.Placed where
  nodup := i.wait.nodup
  unique {t q q'} h h' := ((i.wait.mem t q).mp h).2.symm.trans ((i.wait.mem t q').mp h').2

theorem Inv.not_waiting (i : s.Inv) {t : ℕ} (h : (s.k.td t).state = .ready) :
    ¬s.waiters.IsWaiting t := by
  rintro ⟨q, hq⟩
  exact i.wait.notMem h q hq

/-- A step keeps the invariant and the kinds of the queues, and has one of the effects
that keep the order. -/
structure Good (s s' : SyncData) : Prop where
  inv : s'.Inv
  kinds : s'.byPriority = s.byPriority
  effect : Effect (fun q => s.byPriority q = true) s.waiters s'.waiters

theorem Inv.congr (i : s.Inv) (h : KernelData.SameWaits s.k s'.k) : s'.Inv where
  wait := i.wait.congr h
  active := by rw [h.activePtr, h.state, i.active]

/-- The kernel and the kinds of the queues stay. -/
theorem Inv.good_same (i : s.Inv) (hk : s'.k = s.k) (hb : s'.byPriority = s.byPriority) :
    Good s s' where
  inv := i.congr (by rw [hk]; exact KernelData.SameWaits.refl _)
  kinds := hb
  effect := by
    apply Effect.quiet
    · exact congrArg KernelData.queues hk
    · intro u _
      simp only [waiters, hk]

/-- The priority of one task changes, to one that fits its place. -/
theorem Inv.good_move (i : s.Inv) (h : KernelData.SameWaits s.k s'.k)
    (hb : s'.byPriority = s.byPriority) (t : ℕ)
    (hprio : ∀ u, u ≠ t → (s'.k.td u).myQueue = (s.k.td u).myQueue)
    (hfits : ∀ q, s.byPriority q = true → FitsPlace s.waiters q t (s'.k.td t).myQueue) :
    Good s s' where
  inv := i.congr h
  kinds := hb
  effect := Effect.move t h.queues hprio hfits

/-- The priority of a task changes that does not wait. -/
theorem Inv.good_quiet (i : s.Inv) (h : KernelData.SameWaits s.k s'.k)
    (hb : s'.byPriority = s.byPriority) {t : ℕ} (ht : (s.k.td t).state = .ready)
    (hprio : ∀ u, u ≠ t → (s'.k.td u).myQueue = (s.k.td u).myQueue) : Good s s' where
  inv := i.congr h
  kinds := hb
  effect := by
    apply Effect.quiet h.queues
    intro u hu
    apply hprio
    rintro rfl
    exact i.not_waiting ht hu

/-- A switch to another task at the end of a step. -/
theorem Good.switchTo {s₁ : SyncData} (g : Good s s₁) {u : ℕ} (h : s₁.switchTo u = some s') :
    Good s s' := by
  unfold SyncData.switchTo at h
  split at h
  · rename_i hu
    have hs' := (Option.some.inj h).symm
    subst hs'
    exact ⟨⟨g.inv.wait.dispatch u, hu⟩, g.kinds, g.effect⟩
  · exact absurd h (by simp)

/-- The active task goes to wait, and the processor to another one. -/
theorem Inv.good_sleep (i : s.Inv) {s₁ : SyncData} {state : TaskState} {q u : ℕ}
    (hk : s₁.k = s.k.blockOn (s.byPriority q) s.k.activePtr state q) (hs : state.isWaiting)
    (hb : s₁.byPriority = s.byPriority) (h : s₁.switchTo u = some s') : Good s s' := by
  unfold SyncData.switchTo at h
  split at h
  · rename_i hu
    have hs' := (Option.some.inj h).symm
    subst hs'
    have hqueues := KernelData.blockOn_queues (k := s.k) (s.byPriority q) s.k.activePtr state q
    refine ⟨⟨?_, hu⟩, hb, ?_⟩
    · apply WaitInv.dispatch
      rw [hk]
      exact i.wait.blockOn i.active hs q _
    · refine Effect.sleep s.k.activePtr q (if s.byPriority q then
        (s.k.queues q).orderedInsert (fun a b => (s.k.td a).myQueue < (s.k.td b).myQueue)
          s.k.activePtr
        else s.k.queues q ++ [s.k.activePtr]) (i.not_waiting i.active) ?_ ?_ ?_ ?_
      · exact (congrArg KernelData.queues hk).trans hqueues
      · intro v
        cases s.byPriority q
        · simp [waiters, or_comm]
        · simp [waiters]
      · intro hq
        rw [hq]
        rfl
      · funext v
        have hv := KernelData.blockOn_myQueue (k := s.k) (s.byPriority q) s.k.activePtr state q v
        rw [← hk] at hv
        exact hv
  · exact absurd h (by simp)

/-- The first task of a queue is released; its own priority may change with it. -/
theorem Inv.good_release (i : s.Inv) {q t : ℕ} {rest : List ℕ} (hq : s.k.queues q = t :: rest)
    (h : KernelData.SameWaits (s.k.dequeueReady q t) s'.k)
    (hprio : ∀ u, u ≠ t → (s'.k.td u).myQueue = (s.k.td u).myQueue)
    (hb : s'.byPriority = s.byPriority) : Good s s' := by
  have ht : t ∈ s.k.queues q := by simp [hq]
  have hwait := (i.wait.dequeueReady ht).congr h
  have hready : (s'.k.td t).state = .ready := by
    rw [h.state]
    exact KernelData.dequeueReady_state_self t q
  refine ⟨⟨hwait, ?_⟩, hb, ?_⟩
  · rw [h.activePtr, h.state, KernelData.dequeueReady_activePtr]
    have hne : s.k.activePtr ≠ t := by
      rintro rfl
      exact i.wait.notMem i.active q ht
    rw [KernelData.dequeueReady_td_of_ne q hne]
    exact i.active
  · apply Effect.release q [t] rest hq
    · have herase : (s.k.queues q).erase t = rest := by rw [hq, List.erase_cons_head]
      exact h.queues.trans (by rw [KernelData.dequeueReady_queues, herase]; rfl)
    · rintro u ⟨p, hu⟩
      apply hprio
      rintro rfl
      exact hwait.notMem hready p hu

theorem resumeAll_spec {q : ℕ} (l : List ℕ) :
    ∀ {k : KernelData} {rest : List ℕ}, WaitInv k → k.queues q = l ++ rest →
      WaitInv (resumeAll q l k) ∧ (resumeAll q l k).queues = Function.update k.queues q rest ∧
      (resumeAll q l k).activePtr = k.activePtr ∧ ∀ u, u ∉ l → (resumeAll q l k).td u = k.td u := by
  induction l with
  | nil =>
    intro k rest i hq
    have hrest : Function.update k.queues q rest = k.queues := by
      rw [← List.nil_append rest, ← hq, Function.update_eq_self]
    exact ⟨i, hrest.symm, rfl, fun _ _ => rfl⟩
  | cons t l ih =>
    intro k rest i hq
    have ht : t ∈ k.queues q := by simp [hq]
    have htail : (k.dequeueReady q t).queues q = l ++ rest := by
      rw [KernelData.dequeueReady_queues, Function.update_self, hq, List.cons_append,
        List.erase_cons_head]
    obtain ⟨hwait, hqueues, hptr, htd⟩ := ih (i.dequeueReady ht) htail
    refine ⟨hwait, ?_, hptr, ?_⟩
    · rw [resumeAll, hqueues, KernelData.dequeueReady_queues, Function.update_idem]
    · intro u hu
      rw [List.mem_cons, not_or] at hu
      rw [resumeAll, htd u hu.2, KernelData.dequeueReady_td_of_ne q hu.1]

/-! ## Calls -/

theorem byPriority_mutex {q : ℕ} {m : Mutex} (hm : s.object q = .mutex m) :
    s.byPriority q = decide (m.waitProtocol = .priorityQueueing) := by
  unfold byPriority
  rw [hm]

theorem byPriority_setMutex {q : ℕ} {m m' : Mutex} (hm : s.object q = .mutex m)
    (h : m'.waitProtocol = m.waitProtocol) : (s.setMutex q m').byPriority = s.byPriority := by
  funext p
  by_cases hp : p = q
  · have hself : (s.setMutex q m').object q = .mutex m' := Function.update_self _ _ _
    rw [hp, byPriority_mutex hself, byPriority_mutex hm, h]
  · have hother : (s.setMutex q m').object p = s.object p := Function.update_of_ne hp _ _
    unfold byPriority
    rw [hother]

theorem good_mutexLock (i : s.Inv) (q : ℕ) : Good s (s.mutexLock q) := by
  unfold mutexLock
  split
  · split
    · exact i.good_same rfl rfl
    · split <;> exact i.good_same rfl rfl
  · exact i.good_same rfl rfl

theorem good_mutexTryLock (i : s.Inv) (q : ℕ) : Good s (s.mutexTryLock q) := by
  unfold mutexTryLock
  split
  · rename_i m hm
    split
    · exact i.good_same rfl rfl
    · exact i.good_same rfl (byPriority_setMutex (m := m) hm rfl)
  · exact i.good_same rfl rfl

/-- The owner of a locked mutex is boosted. -/
theorem good_boost (i : s.Inv) {t p : ℕ} {pc : Pc}
    (hfits : ∀ q, s.byPriority q = true → FitsPlace s.waiters q t p) :
    Good s ((s.boost t p).goto pc) := by
  apply i.good_move (t := t)
  · exact KernelData.sameWaits_schedBoostPriorityInternal t p
  · rfl
  · intro u hut
    exact (KernelData.schedBoostPriorityInternal_myQueue t p u).trans (if_neg hut)
  · intro q hq
    have hp := KernelData.schedBoostPriorityInternal_myQueue (k := s.k) t p t
    rw [if_pos rfl] at hp
    exact hp.symm ▸ hfits q hq

/-- The active task boosts itself. -/
theorem good_boost_self (i : s.Inv) {p : ℕ} {pc : Pc} :
    Good s ((s.boost s.k.activePtr p).goto pc) := by
  apply good_boost i
  intro q _ pre post hq
  have hmem : s.k.activePtr ∈ s.k.queues q := by
    have hq' : s.k.queues q = pre ++ s.k.activePtr :: post := hq
    rw [hq']
    simp
  exact absurd hmem (i.wait.notMem i.active q)

theorem good_lockWoken (i : s.Inv) (q : ℕ) : Good s (s.lockWoken q) := by
  unfold lockWoken
  split
  · rename_i m hm
    simp only
    split
    · split
      · exact good_boost_self i
      · exact i.good_same rfl (byPriority_setMutex (m := m) hm rfl)
    · exact i.good_same rfl rfl
  · exact i.good_same rfl rfl

theorem good_lockProtect (i : s.Inv) (q : ℕ) : Good s (s.lockProtect q) := by
  unfold lockProtect
  split
  · rename_i m hm
    split
    · split
      · exact good_boost_self i
      · exact i.good_same rfl (byPriority_setMutex (m := m) hm rfl)
    · exact i.good_same rfl rfl
  · exact i.good_same rfl rfl

theorem byPriority_bumpAt (q : ℕ) : (s.bumpAt q).byPriority = s.byPriority := by
  unfold bumpAt
  split
  · rename_i m hm
    exact byPriority_setMutex (m := m) hm rfl
  · rfl

theorem bumpAt_k (q : ℕ) : (s.bumpAt q).k = s.k := by
  unfold bumpAt
  split <;> rfl

theorem byPriority_bumpIf {q : ℕ} {m : Mutex} (hm : s.object q = .mutex m) (p : ℕ) :
    (s.bumpIf q m p).byPriority = s.byPriority := by
  unfold bumpIf
  split
  · exact byPriority_setMutex hm rfl
  · rfl

theorem bumpIf_k (q : ℕ) (m : Mutex) (p : ℕ) : (s.bumpIf q m p).k = s.k := by
  unfold bumpIf
  split <;> rfl

/-- A yield changes nothing for those who wait. -/
theorem good_spinYield (i : s.Inv) {s₁ : SyncData} (hk : s₁.k = s.k)
    (hb : s₁.byPriority = s.byPriority) {q p c u : ℕ}
    (h : s₁.spinYield q p c u = some s') : Good s s' := by
  unfold spinYield at h
  apply Good.switchTo _ h
  apply i.good_quiet (t := s.k.activePtr)
  · simp only [hk]
    exact KernelData.sameWaits_schedYield i.active
  · exact hb
  · exact i.active
  · intro v _
    simp only [hk]
    exact KernelData.schedYield_myQueue v

theorem good_lockSleep (i : s.Inv) {s₁ : SyncData} {q u : ℕ} {m : Mutex}
    (hm : s.object q = .mutex m) (hk : s₁.k = s.k) (hb : s₁.byPriority = s.byPriority)
    (h : s₁.lockSleep q m u = some s') : Good s s' := by
  unfold lockSleep at h
  have hsleep : (SyncData.mk (s₁.k.blockOn (decide (m.waitProtocol = .priorityQueueing))
      s₁.k.activePtr .mutexBlocked q) s₁.object (s₁.goto (.lockWoken q)).pc s₁.result s₁.isTask
      s₁.lowestTaskPriority).k = s.k.blockOn (s.byPriority q) s.k.activePtr .mutexBlocked q := by
    rw [byPriority_mutex hm, hk]
  exact i.good_sleep hsleep rfl hb h

theorem good_unlockTail (i : s.Inv) {s₁ : SyncData} (hk : s₁.k = s.k)
    (hb : s₁.byPriority = s.byPriority) (n : ℕ) : Good s (s₁.unlockTail n) := by
  unfold unlockTail
  simp only
  split
  · apply i.good_quiet (t := s.k.activePtr)
    · simp only [finish, hk]
      exact KernelData.sameWaits_schedUnboostPriorityInternal _ _
    · exact hb
    · exact i.active
    · intro v hv
      simp only [finish, hk]
      rw [KernelData.schedUnboostPriorityInternal_td_of_ne _ hv]
  · exact i.good_same hk hb

theorem good_handOver (i : s.Inv) {q t n : ℕ} {m : Mutex} {rest : List ℕ}
    (hm : s.object q = .mutex m) (hq : s.k.queues q = t :: rest) : Good s (s.handOver q m t n) := by
  have hkind : (s.setMutex q { m with ownerTd := t, boosted := 0 }).byPriority = s.byPriority :=
    byPriority_setMutex hm rfl
  have hprio : ∀ u, u ≠ t → ((s.k.dequeueReady q t).td u).myQueue = (s.k.td u).myQueue := by
    intro u hut
    rw [KernelData.dequeueReady_td_of_ne q hut]
  unfold handOver
  simp only
  split
  · split
    · apply i.good_release hq
      · exact KernelData.sameWaits_schedBoostPriorityInternal t _
      · intro u hut
        refine Eq.trans ?_ (hprio u hut)
        exact (KernelData.schedBoostPriorityInternal_myQueue t _ u).trans (if_neg hut)
      · exact hkind
    · apply i.good_release hq (KernelData.SameWaits.refl _) hprio
      refine Eq.trans (byPriority_setMutex (m := { m with ownerTd := t, boosted := 0 }) ?_ rfl) hkind
      exact Function.update_self _ _ _
  · exact i.good_release hq (KernelData.SameWaits.refl _) hprio hkind

theorem good_mutexUnlock (i : s.Inv) (q : ℕ) : Good s (s.mutexUnlock q) := by
  unfold mutexUnlock
  split
  · rename_i m hm
    split
    · exact i.good_same rfl rfl
    · simp only
      have hfree : ∀ n, Good s (SyncData.unlockTail
          (s.setMutex q { m with lock := false, ownerTd := 0, boosted := 0 }) n) := by
        intro n
        apply good_unlockTail i
        · rfl
        · exact byPriority_setMutex (m := m) hm rfl
      split
      · exact hfree _
      · split
        · exact hfree _
        · rename_i t rest hq
          exact good_handOver i hm hq
  · exact i.good_same rfl rfl

theorem good_taskqResume (i : s.Inv) (q : ℕ) (allTasks : Bool) :
    Good s (s.taskqResume q allTasks).2 := by
  unfold taskqResume
  split
  · split
    · exact i.good_same rfl rfl
    · rename_i t l hq
      simp only
      obtain ⟨l', rest, hl', hsplit⟩ : ∃ l' rest,
          (if allTasks = true then t :: l else [t]) = l' ∧ s.k.queues q = l' ++ rest := by
        cases allTasks
        · exact ⟨[t], l, rfl, hq⟩
        · exact ⟨t :: l, [], rfl, by rw [hq, List.append_nil]⟩
      rw [hl']
      obtain ⟨hwait, hqueues, hptr, htd⟩ := resumeAll_spec l' i.wait hsplit
      have hmem : ∀ u ∈ l', u ∈ s.k.queues q := by
        intro u hu
        rw [hsplit]
        exact List.mem_append_left _ hu
      have hactive : s.k.activePtr ∉ l' := fun hm => i.wait.notMem i.active q (hmem _ hm)
      refine ⟨⟨hwait, ?_⟩, rfl, ?_⟩
      · simp only
        rw [hptr, htd _ hactive]
        exact i.active
      · apply Effect.release q l' rest hsplit hqueues
        rintro u ⟨p, hu⟩
        have hu' : u ∉ l' := by
          intro hul
          have hnd := i.wait.nodup q
          have huq : u ∈ Function.update s.k.queues q rest p := by
            rw [← hqueues]
            exact hu
          by_cases hp : p = q
          · subst hp
            rw [Function.update_self] at huq
            rw [hsplit, List.nodup_append] at hnd
            exact hnd.2.2 u hul u huq rfl
          · rw [Function.update_of_ne hp] at huq
            exact hp (i.placed.unique huq (hmem u hul))
        simp only [waiters]
        rw [htd u hu']
  · exact i.good_same rfl rfl

theorem good_taskqSuspend (i : s.Inv) {q u : ℕ} (h : s.taskqSuspend q u = some s') : Good s s' := by
  unfold taskqSuspend at h
  split at h
  · rename_i b hobject
    have hby : s.byPriority q = b := by
      unfold byPriority
      rw [hobject]
    have hsleep : (SyncData.mk (s.k.blockOn b s.k.activePtr .taskQueueBlocked q) s.object
        (s.finish .ok).pc (s.finish .ok).result s.isTask s.lowestTaskPriority).k =
        s.k.blockOn (s.byPriority q) s.k.activePtr .taskQueueBlocked q := by
      rw [hby]
    exact i.good_sleep hsleep rfl rfl h
  · rw [← Option.some.inj h]
    exact i.good_same rfl rfl

/-! ## `_task_set_priority` -/

theorem requeues_iff {t : ℕ} : s.requeues t = true ↔
    (s.k.td t).state = .taskQueueBlocked ∧ s.object (s.k.td t).info = .taskQueue true := by
  unfold requeues
  rw [Bool.and_eq_true, decide_eq_true_eq]
  constructor
  · rintro ⟨hs, hb⟩
    refine ⟨hs, ?_⟩
    split at hb
    · rename_i b hobject
      rw [hobject, hb]
    · exact absurd hb (by simp)
  · rintro ⟨hs, hobject⟩
    refine ⟨hs, ?_⟩
    rw [hobject]

/-- The priority that a call of `_task_set_priority` gives to a task that is not queued
again fits the place of the task; one that stays the same finds the task that is queued
again behind its equals. -/
def PriorityFits (s : SyncData) (t p : ℕ) : Prop :=
  if s.requeues t then
    s.k.newPriorityOf t p = (s.k.td t).myQueue → LastOfEquals s.waiters (s.k.td t).info t
  else ∀ q, s.byPriority q = true → FitsPlace s.waiters q t (s.k.newPriorityOf t p)

/-- The task is queued again by its new priority. -/
theorem good_requeue (i : s.Inv) {t p : ℕ} (hre : s.requeues t = true)
    (hlast : s.k.newPriorityOf t p = (s.k.td t).myQueue →
      LastOfEquals s.waiters (s.k.td t).info t) :
    Good s { s with
      k := ((s.k.setHomePriority t p).queueRemove (s.k.td t).info t).schedInsertPriorityqInternal
        (s.k.td t).info t } := by
  obtain ⟨hstate, hobject⟩ := requeues_iff.mp hre
  have hsame := KernelData.sameWaits_setHomePriority (k := s.k) t p
  have hmy := KernelData.setHomePriority_myQueue (k := s.k) t p
  have hby : s.byPriority (s.k.td t).info = true := by
    unfold byPriority
    rw [hobject]
  have ht : t ∈ s.k.queues (s.k.td t).info := by
    rw [i.wait.mem, hstate]
    exact ⟨rfl, rfl⟩
  refine ⟨⟨?_, ?_⟩, rfl, ?_⟩
  · apply (i.wait.congr hsame).requeue
    rw [hsame.queues]
    exact ht
  · have hinv : Inv { s with k := s.k.setHomePriority t p } := i.congr hsame
    exact hinv.active
  · apply Effect.requeue t (s.k.td t).info hby ht
    · simp only [waiters, KernelData.schedInsertPriorityqInternal, KernelData.queueRemove,
        Function.update_self, Function.update_idem, hsame.queues]
    · intro u hut
      exact (hmy u).trans (if_neg hut)
    · intro heq
      apply hlast
      exact ((hmy t).trans (if_pos rfl)).symm.trans heq

theorem good_taskSetPriority (i : s.Inv) {t p : ℕ}
    (hfits : p ≤ s.lowestTaskPriority → s.isTask t = true → s.PriorityFits t p) :
    Good s (s.taskSetPriority t p).2.2 := by
  unfold taskSetPriority
  split
  · exact i.good_same rfl rfl
  · split
    · exact i.good_same rfl rfl
    · rename_i hp htask
      have hfits := hfits (by omega) (by simpa using htask)
      unfold PriorityFits at hfits
      simp only
      split
      · rename_i hre
        rw [if_pos hre] at hfits
        exact good_requeue i hre hfits
      · rename_i hre
        rw [if_neg hre] at hfits
        have hmy := KernelData.setHomePriority_myQueue (k := s.k) t p
        apply i.good_move (t := t)
        · exact KernelData.sameWaits_setHomePriority t p
        · rfl
        · intro u hut
          exact (hmy u).trans (if_neg hut)
        · intro q hq
          exact ((hmy t).trans (if_pos rfl)).symm ▸ hfits q hq

/-! ## Steps -/

/-- The owner, and the priority it inherits, when the next section of the active task
boosts it. -/
def ownerBoost (s : SyncData) : Option (ℕ × ℕ) :=
  match s.pc s.k.activePtr with
  | .lockSpin q priority count =>
    match s.object q with
    | .mutex m =>
      if count ≠ 0 ∧ m.lock = true ∧ s.mustBoost m priority = true then
        some (m.ownerTd, priority) else none
    | _ => none
  | .lockTest q priority =>
    match s.object q with
    | .mutex m =>
      if m.lock = true ∧ s.mustBoost m priority = true then some (m.ownerTd, priority) else none
    | _ => none
  | _ => none

/-- The event does not put a waiting task out of order: an owner that inherits a priority
while it waits itself, and a task that is given one while it waits, still fit their
place. -/
def KeepsOrder (s : SyncData) : Event → Prop
  | .setPriority t p => p ≤ s.lowestTaskPriority → s.isTask t = true → s.PriorityFits t p
  | .run _ => ∀ t p, s.ownerBoost = some (t, p) →
      ∀ q, s.byPriority q = true → FitsPlace s.waiters q t p
  | _ => True

theorem good_lockSpin (i : s.Inv) {q p c u : ℕ} (hpc : s.pc s.k.activePtr = .lockSpin q p c)
    (hkeep : s.KeepsOrder (.run u)) (h : s.lockSpin q p c u = some s') : Good s s' := by
  unfold lockSpin at h
  split at h
  · rename_i m hm
    split at h
    · rw [← Option.some.inj h]
      exact i.good_same rfl rfl
    · rename_i hc
      split at h
      · rename_i hlock
        simp only at h
        split at h
        · rename_i hboost
          rw [← Option.some.inj h]
          apply good_boost i
          apply hkeep
          simp only [ownerBoost, hpc, hm]
          rw [if_pos ⟨hc, hlock, hboost⟩]
        · exact good_spinYield i (bumpIf_k q m p) (byPriority_bumpIf hm p) h
      · rw [← Option.some.inj h]
        exact i.good_same rfl (byPriority_setMutex (m := m) hm rfl)
  · rw [← Option.some.inj h]
    exact i.good_same rfl rfl

theorem good_lockTest (i : s.Inv) {q p u : ℕ} (hpc : s.pc s.k.activePtr = .lockTest q p)
    (hkeep : s.KeepsOrder (.run u)) (h : s.lockTest q p u = some s') : Good s s' := by
  unfold lockTest at h
  split at h
  · rename_i m hm
    split at h
    · rename_i hlock
      split at h
      · rename_i hboost
        rw [← Option.some.inj h]
        apply good_boost i
        apply hkeep
        simp only [ownerBoost, hpc, hm]
        rw [if_pos ⟨hlock, hboost⟩]
      · exact good_lockSleep i hm (bumpIf_k q m p) (byPriority_bumpIf hm p) h
    · rw [← Option.some.inj h]
      exact i.good_same rfl (byPriority_setMutex (m := m) hm rfl)
  · rw [← Option.some.inj h]
    exact i.good_same rfl rfl

theorem good_run (i : s.Inv) {u : ℕ} (hkeep : s.KeepsOrder (.run u)) (h : s.run u = some s') :
    Good s s' := by
  unfold run at h
  split at h
  · exact absurd h (by simp)
  · rename_i hpc
    exact good_lockSpin i hpc hkeep h
  · rename_i q p c _
    exact good_spinYield i (bumpAt_k q) (byPriority_bumpAt q) h
  · split at h
    · rename_i m hm
      rw [← Option.some.inj h]
      exact i.good_same rfl (byPriority_setMutex (m := m) hm rfl)
    · rw [← Option.some.inj h]
      exact i.good_same rfl rfl
  · rename_i hpc
    exact good_lockTest i hpc hkeep h
  · split at h
    · rename_i m hm
      refine good_lockSleep i hm ?_ ?_ h
      · rfl
      · exact byPriority_setMutex hm rfl
    · rw [← Option.some.inj h]
      exact i.good_same rfl rfl
  · rw [← Option.some.inj h]
    exact good_lockWoken i _
  · rw [← Option.some.inj h]
    exact i.good_same (bumpAt_k _) (byPriority_bumpAt _)
  · rw [← Option.some.inj h]
    exact good_lockProtect i _
  · rw [← Option.some.inj h]
    exact i.good_same (bumpAt_k _) (byPriority_bumpAt _)
  · rw [← Option.some.inj h]
    exact i.good_same (bumpAt_k _) (byPriority_bumpAt _)
  · rw [← Option.some.inj h]
    exact good_unlockTail i rfl rfl _

theorem good_exec (i : s.Inv) {e : Event} (hkeep : s.KeepsOrder e) (h : s.exec e = some s') :
    Good s s' := by
  cases e with
  | dispatch u =>
    simp only [exec] at h
    split at h
    · exact (i.good_same rfl rfl).switchTo h
    · exact absurd h (by simp)
  | run u => exact good_run i hkeep h
  | lock q =>
    simp only [exec] at h
    split at h
    · exact Option.some.inj h ▸ good_mutexLock i q
    · exact absurd h (by simp)
  | tryLock q =>
    simp only [exec] at h
    split at h
    · exact Option.some.inj h ▸ good_mutexTryLock i q
    · exact absurd h (by simp)
  | unlock q =>
    simp only [exec] at h
    split at h
    · exact Option.some.inj h ▸ good_mutexUnlock i q
    · exact absurd h (by simp)
  | suspend q u =>
    simp only [exec] at h
    split at h
    · exact good_taskqSuspend i h
    · exact absurd h (by simp)
  | resume q allTasks =>
    simp only [exec] at h
    split at h
    · exact Option.some.inj h ▸ good_taskqResume i q allTasks
    · exact absurd h (by simp)
  | setPriority t p =>
    simp only [exec] at h
    split at h
    · exact Option.some.inj h ▸ good_taskSetPriority i hkeep
    · exact absurd h (by simp)

/-! ## Runs -/

/-- A step that keeps the order, with the history of the waiting tasks. -/
def OrderedStep (x y : SyncData × History ℕ) : Prop :=
  ∃ e, x.1.KeepsOrder e ∧ x.1.exec e = some y.1 ∧ y.2 = x.2.next x.1.waiters y.1.waiters

theorem inOrder_run {x y : SyncData × History ℕ} (hrun : Relation.ReflTransGen OrderedStep x y)
    (i : x.1.Inv) (o : InOrder (fun q => x.1.byPriority q = true) x.1.waiters x.2) :
    y.1.Inv ∧ InOrder (fun q => y.1.byPriority q = true) y.1.waiters y.2 := by
  induction hrun with
  | refl => exact ⟨i, o⟩
  | tail _ hstep ih =>
    obtain ⟨e, hkeep, hexec, hnext⟩ := hstep
    have g := good_exec ih.1 hkeep hexec
    refine ⟨g.inv, ?_⟩
    rw [hnext, g.kinds]
    exact ih.2.effect ih.1.placed g.effect

/-- Unlocking a mutex takes the first task from its queue, or none. -/
theorem mutexUnlock_takes_first (q : ℕ) :
    ∃ l, s.k.queues q = l ++ (s.mutexUnlock q).k.queues q := by
  have hsame : ∀ {s₁ : SyncData}, s₁.k.queues = s.k.queues → ∃ l, s.k.queues q = l ++ s₁.k.queues q :=
    fun h => ⟨[], by rw [h, List.nil_append]⟩
  have hfree : ∀ {s₁ : SyncData} (n : ℕ), s₁.k = s.k →
      ∃ l, s.k.queues q = l ++ (s₁.unlockTail n).k.queues q := by
    intro s₁ n hk
    apply hsame
    unfold unlockTail
    simp only
    split
    · simp only [finish, hk]
      exact (KernelData.sameWaits_schedUnboostPriorityInternal _ n).queues
    · exact congrArg KernelData.queues hk
  unfold mutexUnlock
  split
  · split
    · exact hsame rfl
    · simp only
      split
      · exact hfree _ rfl
      · split
        · exact hfree _ rfl
        · rename_i m _ _ _ _ t rest hq
          refine ⟨[t], ?_⟩
          have hrest : (s.handOver q m t m.boosted).k.queues q = rest := by
            have hd : (s.k.dequeueReady q t).queues q = rest := by
              rw [KernelData.dequeueReady_queues, Function.update_self, hq, List.erase_cons_head]
            unfold handOver
            simp only
            split
            · split
              · exact (congrFun (KernelData.sameWaits_schedBoostPriorityInternal t _).queues q).trans hd
              · exact hd
            · exact hd
          rw [hrest, hq]
          rfl
  · exact hsame rfl

/-- `_taskq_resume` takes the first task, or all of them in the order of the queue. -/
theorem taskqResume_takes_first (i : s.Inv) (q : ℕ) (allTasks : Bool) :
    ∃ l, s.k.queues q = l ++ (s.taskqResume q allTasks).2.k.queues q := by
  unfold taskqResume
  split
  · split
    · exact ⟨[], rfl⟩
    · rename_i t l hq
      cases allTasks
      · obtain ⟨_, hqueues, _⟩ := @resumeAll_spec q [t] s.k l i.wait hq
        refine ⟨[t], ?_⟩
        simp only [Bool.false_eq_true, if_false]
        rw [hqueues, Function.update_self, hq]
        rfl
      · obtain ⟨_, hqueues, _⟩ := @resumeAll_spec q (t :: l) s.k [] i.wait
          (by rw [hq, List.append_nil])
        refine ⟨t :: l, ?_⟩
        simp only [if_true]
        rw [hqueues, Function.update_self, hq, List.append_nil]
  · exact ⟨[], rfl⟩

/-- In a run whose steps put no waiting task out of order, the queues that are kept by
priority are in order at any time, and tasks are released from the front: a released task
has a priority as high as any that still waits, and has waited longest among those of the
same priority when neither priority has changed. -/
theorem released_in_order {s s' : SyncData} {h h' : History ℕ} (i : s.Inv)
    (hempty : ∀ q, s.k.queues q = [])
    (hrun : Relation.ReflTransGen OrderedStep (s, h) (s', h')) {q : ℕ}
    (hq : s'.byPriority q = true) :
    (s'.k.queues q).Pairwise (GoesBefore s'.waiters h') ∧
      ∀ e s'', (e = .unlock q ∨ ∃ allTasks, e = .resume q allTasks) → s'.exec e = some s'' →
        ∃ released, s'.k.queues q = released ++ s''.k.queues q := by
  have o : InOrder (fun q => s.byPriority q = true) s.waiters h := by
    constructor
    · intro p _
      have hp : s.waiters.queue p = [] := hempty p
      rw [hp]
      exact List.Pairwise.nil
    · rintro t ⟨p, hp⟩
      have hnil : s.waiters.queue p = [] := hempty p
      rw [hnil] at hp
      exact absurd hp List.not_mem_nil
  obtain ⟨i', o'⟩ := inOrder_run hrun i o
  refine ⟨o'.sorted q hq, ?_⟩
  rintro e s'' (rfl | ⟨allTasks, rfl⟩) hexec
  · simp only [exec] at hexec
    split at hexec
    · rw [← Option.some.inj hexec]
      exact mutexUnlock_takes_first q
    · exact absurd hexec (by simp)
  · simp only [exec] at hexec
    split at hexec
    · rw [← Option.some.inj hexec]
      exact taskqResume_takes_first i' q allTasks
    · exact absurd hexec (by simp)

/-! ## Two tasks on a mutex -/

/-- A list of events, as far as they can happen. -/
def execAll (s : SyncData) : List Event → Option SyncData
  | [] => some s
  | e :: l => (s.exec e).bind fun s' => s'.execAll l

/-- Four tasks, a mutex with priority queueing and a task queue by priority. -/
def bootSync : SyncData where
  k := bootKernel 4
  object q := if q = 0x100 then
      .mutex ⟨.priorityQueueing, true, false, 0, 0, false, 0, 0⟩
    else if q = 0x200 then .taskQueue true else .invalid
  pc _ := .idle
  result _ := .eok
  isTask t := decide (0 < t ∧ t ≤ 4)
  lowestTaskPriority := 10

theorem bootSync_inv : bootSync.Inv :=
  ⟨(bootKernel_running (by decide)).inv.wait, (bootKernel_running (by decide)).active⟩

/-- Task 1 locks the mutex, tasks 2 and 3 wait for it, and task 4 runs. -/
def lockedByOne : List Event :=
  [.lock 0x100, .run 0, .run 0, .run 0, .dispatch 2, .lock 0x100, .run 3, .lock 0x100, .run 4]

/-- Task 3 waits behind task 2; when its priority is raised to 1 it stays there, and the
unlock releases task 2. -/
theorem raised_waiter_not_first :
    (bootSync.execAll (lockedByOne ++ [.setPriority 3 1])).map
        (fun s => (s.k.queues 0x100, (s.k.td 2).myQueue, (s.k.td 3).myQueue)) =
      some ([2, 3], 2, 1) ∧
    (bootSync.execAll (lockedByOne ++ [.setPriority 3 1, .dispatch 1, .unlock 0x100])).map
        (fun s => (s.k.queues 0x100, (s.k.td 2).state)) = some ([3], .ready) := by
  decide

/-- Tasks 1 and 2 suspend themselves on the task queue. -/
theorem released_in_order_suspended :
    ∃ s' h', Relation.ReflTransGen OrderedStep (bootSync, ⟨0, fun _ => 0, fun _ => False⟩) (s', h') ∧
      s'.k.queues 0x200 = [1, 2] ∧ (s'.k.queues 0x200).Pairwise (GoesBefore s'.waiters h') := by
  obtain ⟨s₁, h₁⟩ : ∃ s₁, bootSync.exec (.suspend 0x200 2) = some s₁ :=
    Option.isSome_iff_exists.mp (by decide)
  have hboth : (bootSync.execAll [.suspend 0x200 2, .suspend 0x200 3]).map
      (fun s => (s.k.queues 0x200, s.byPriority 0x200)) = some ([1, 2], true) := by decide
  simp only [execAll, h₁, Option.bind_some] at hboth
  obtain ⟨s₂, h₂⟩ : ∃ s₂, s₁.exec (.suspend 0x200 3) = some s₂ := by
    cases h : s₁.exec (.suspend 0x200 3) with
    | none => simp [h] at hboth
    | some s₂ => exact ⟨s₂, rfl⟩
  rw [h₂] at hboth
  have hpair := Option.some.inj hboth
  have hqueue : s₂.k.queues 0x200 = [1, 2] := congrArg Prod.fst hpair
  have hby : s₂.byPriority 0x200 = true := congrArg Prod.snd hpair
  obtain ⟨g₁, hg₁⟩ : ∃ g₁, g₁ = History.next ⟨0, fun _ => 0, fun _ => False⟩
      bootSync.waiters s₁.waiters := ⟨_, rfl⟩
  obtain ⟨g₂, hg₂⟩ : ∃ g₂, g₂ = g₁.next s₁.waiters s₂.waiters := ⟨_, rfl⟩
  have hfirst : OrderedStep (bootSync, ⟨0, fun _ => 0, fun _ => False⟩) (s₁, g₁) :=
    ⟨.suspend 0x200 2, trivial, h₁, hg₁⟩
  have hsecond : OrderedStep (s₁, g₁) (s₂, g₂) := ⟨.suspend 0x200 3, trivial, h₂, hg₂⟩
  have hrun := (Relation.ReflTransGen.single hfirst).tail hsecond
  exact ⟨s₂, g₂, hrun, hqueue, (released_in_order bootSync_inv (fun _ => rfl) hrun hby).1⟩

end SyncData

end Mqx.Sync
