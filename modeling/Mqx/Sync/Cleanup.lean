import Mqx.Sync.Sem

/-!
# Cleanup of a destroyed task

Model of the table of cleanup functions. Each kernel component stores its function when it is
created, and `_task_destroy_internal` calls the stored ones with the task. The functions of the
timers, the event groups and the semaphores work on the resources of the task that are modelled
here; those of the other components leave them alone.
-/

namespace Mqx.Sync

open Function (update)

namespace SemStruct

/-- `_QUEUE_REMOVE` of a connection that may be in the queue. -/
def leave (s : SemStruct) (c : ℕ) : SemStruct :=
  { s with waitingTasks := s.waitingTasks.eraseP fun w => w.connection == c }

/-- The loop of `_sem_cleanup` that posts until the `POST_STATE`, here the first argument, is 0.
A posting that is refused leaves it, and the loop never ends. -/
def postAll (active c : ℕ) : ℕ → SemStruct → Option SemStruct
  | 0, s => some s
  | n + 1, s => if (s.post active c).2 = .ok then postAll active c n (s.post active c).1 else none

end SemStruct

/-- The kernel components that register a cleanup function. -/
inductive Component where
  | semaphores
  | events
  | mutexes
  | timer
  | watchdog
  | messages
  | partitions
deriving DecidableEq

/-- The index of a component: `KERNEL_SEMAPHORES` and so on. -/
def Component.index : Component → ℕ
  | .semaphores => 1
  | .events => 2
  | .mutexes => 3
  | .timer => 4
  | .watchdog => 6
  | .messages => 7
  | .partitions => 8

/-- The slot of `COMPONENT_CLEANUP` that the creation of a component writes; the timer component
writes the one of `KERNEL_EVENTS`. -/
def Component.cleanupSlot : Component → ℕ
  | .timer => Component.events.index
  | c => c.index

/-- `MAX_KERNEL_COMPONENTS`. -/
def maxKernelComponents : ℕ := 16

/-- `TIMER_ENTRY_STRUCT`: the `ID` and `TD_PTR`. -/
structure TimerEntry where
  id : ℕ
  td : ℕ

/-- What a memory block of a task holds: a connection of the task to an event group or to a
semaphore, or something else. -/
inductive Connection where
  | event (td eventPtr : ℕ)
  | sem (td semPtr : ℕ)
  | other

/-- `EVENT_STRUCT`: `VALID` and the connections in `WAITING_TASKS`. -/
structure EventQueue where
  valid : Bool
  waitingTasks : List ℕ

/-- The created components, `COMPONENT_CLEANUP`, the two queues of timer entries, the memory
blocks of each task with their contents, the event groups and the semaphores. -/
structure Components where
  created : Component → Bool
  cleanup : ℕ → Option Component
  elapsedTimerEntries : List TimerEntry
  kernelTimerEntries : List TimerEntry
  blocks : ℕ → List ℕ
  connection : ℕ → Connection
  event : ℕ → EventQueue
  sem : ℕ → SemStruct

namespace Components

/-- The creation of a component: it stores its cleanup function when it succeeds. -/
def create (k : Components) (c : Component) (done : Bool) : Components :=
  if k.created c then k
  else if done then
    { k with
      created := update k.created c true
      cleanup := update k.cleanup c.cleanupSlot (some c) }
  else k

/-- `_timer_cleanup`. -/
def timerCleanup (k : Components) (td : ℕ) : Components :=
  if k.created .timer = false then k
  else
    { k with
      elapsedTimerEntries := k.elapsedTimerEntries.filter fun e => e.td ≠ td
      kernelTimerEntries := k.kernelTimerEntries.filter fun e => e.td ≠ td }

/-- `_event_cleanup` at a block of the task. -/
def eventBlock (k : Components) (td c : ℕ) : Components :=
  match k.connection c with
  | .event t p =>
    if t = td ∧ (k.event p).valid = true then
      { k with
        event := update k.event p
          { k.event p with waitingTasks := (k.event p).waitingTasks.erase c } }
    else k
  | _ => k

/-- `_event_cleanup`. -/
def eventCleanup (k : Components) (td : ℕ) : Components :=
  (k.blocks td).foldl (fun k c => k.eventBlock td c) k

/-- `_sem_cleanup` at a block of the task. -/
def semBlock (k : Components) (active td c : ℕ) : Option Components :=
  match k.connection c with
  | .sem t p =>
    if t = td ∧ (k.sem p).valid = true then
      let s := (k.sem p).leave c
      (if s.strict then s.postAll active c (s.tokens.count c) else some s).map
        fun s => { k with sem := update k.sem p s }
    else some k
  | _ => some k

def semBlocks (active td : ℕ) : List ℕ → Components → Option Components
  | [], k => some k
  | c :: l, k => (k.semBlock active td c).bind (semBlocks active td l)

/-- `_sem_cleanup`, in the task `active`. -/
def semCleanup (k : Components) (active td : ℕ) : Option Components :=
  semBlocks active td (k.blocks td) k

/-- The cleanup function of a component. -/
def clean (k : Components) (active td : ℕ) : Component → Option Components
  | .semaphores => k.semCleanup active td
  | .events => some (k.eventCleanup td)
  | .timer => some (k.timerCleanup td)
  | _ => some k

/-- The loop of `_task_destroy_internal` over the slots, with the functions it calls. -/
def cleanupLoop (active td : ℕ) : List ℕ → Components → Option (Components × List Component)
  | [], k => some (k, [])
  | i :: l, k =>
    match k.cleanup i with
    | none => cleanupLoop active td l k
    | some c => (k.clean active td c).bind fun k' =>
        (cleanupLoop active td l k').map fun r => (r.1, c :: r.2)

/-- The memory of the task is freed. -/
def freeBlocks (k : Components) (td : ℕ) : Components :=
  { k with
    blocks := update k.blocks td []
    connection := fun c => if c ∈ k.blocks td then .other else k.connection c }

/-- `_task_destroy_internal` of the task `td` by the task `active`. -/
def destroy (k : Components) (active td : ℕ) : Option (Components × List Component) :=
  (cleanupLoop active td (List.range maxKernelComponents) k).map
    fun r => (r.1.freeBlocks td, r.2)

end Components

/-- What the tasks do with the components; an operation on a semaphore is one of its model. -/
inductive ComponentOp where
  | create (c : Component) (done : Bool)
  | timerStart (elapsed : Bool) (e : TimerEntry)
  | timerRemove (id : ℕ)
  | eventCreate (p : ℕ)
  | eventDestroy (p : ℕ)
  | eventOpen (t c p : ℕ)
  | eventClose (t c : ℕ)
  | eventWait (c p : ℕ)
  | eventLeave (c p : ℕ)
  | semCreate (p : ℕ) (strict priorityQueueing : Bool) (initialCount : UInt32)
  | semOpen (t c p : ℕ)
  | semClose (t c : ℕ)
  | semOp (p : ℕ) (op : SemOp)
  | destroy (active td : ℕ)

namespace Components

def apply (k : Components) : ComponentOp → Components
  | .create c done => k.create c done
  | .timerStart elapsed e =>
    if elapsed then { k with elapsedTimerEntries := k.elapsedTimerEntries ++ [e] }
    else { k with kernelTimerEntries := k.kernelTimerEntries ++ [e] }
  | .timerRemove id =>
    { k with
      elapsedTimerEntries := k.elapsedTimerEntries.filter fun e => e.id ≠ id
      kernelTimerEntries := k.kernelTimerEntries.filter fun e => e.id ≠ id }
  | .eventCreate p => { k with event := update k.event p ⟨true, []⟩ }
  | .eventDestroy p => { k with event := update k.event p { k.event p with valid := false } }
  | .eventOpen t c p =>
    { k with
      blocks := update k.blocks t (c :: k.blocks t)
      connection := update k.connection c (.event t p) }
  | .eventClose t c =>
    { k with
      blocks := update k.blocks t ((k.blocks t).filter fun b => b ≠ c)
      connection := update k.connection c .other }
  | .eventWait c p =>
    { k with
      event := update k.event p
        { k.event p with waitingTasks := (k.event p).waitingTasks ++ [c] } }
  | .eventLeave c p =>
    { k with
      event := update k.event p
        { k.event p with waitingTasks := (k.event p).waitingTasks.erase c } }
  | .semCreate p strict priorityQueueing initialCount =>
    match SemStruct.create strict priorityQueueing initialCount (k.sem p).td with
    | none => k
    | some s => { k with sem := update k.sem p s }
  | .semOpen t c p =>
    { k with
      blocks := update k.blocks t (c :: k.blocks t)
      connection := update k.connection c (.sem t p)
      sem := update k.sem p { k.sem p with td := update (k.sem p).td c t } }
  | .semClose t c =>
    { k with
      blocks := update k.blocks t ((k.blocks t).filter fun b => b ≠ c)
      connection := update k.connection c .other }
  | .semOp p op => { k with sem := update k.sem p ((k.sem p).apply op) }
  | .destroy active td =>
    match k.destroy active td with
    | none => k
    | some r => r.1

def run (k : Components) (ops : List ComponentOp) : Components := ops.foldl apply k

/-- No component, no resource. -/
def boot (td : ℕ → ℕ) : Components where
  created := fun _ => false
  cleanup := fun _ => none
  elapsedTimerEntries := []
  kernelTimerEntries := []
  blocks := fun _ => []
  connection := fun _ => .other
  event := fun _ => ⟨false, []⟩
  sem := fun _ =>
    { valid := false, delayedDestroy := false, strict := false, priorityQueueing := false,
      count := 0, maxCount := 0, waitingTasks := [], tokens := [], td := td, releasing := 0,
      released := 0 }

/-- A block is fresh memory: no task owns it and no queue of a valid group or semaphore holds
it. -/
def Fresh (k : Components) (c : ℕ) : Prop :=
  (∀ t, c ∉ k.blocks t) ∧ (∀ p, (k.event p).valid = true → c ∉ (k.event p).waitingTasks) ∧
    ∀ p, (k.sem p).valid = true → ∀ w ∈ (k.sem p).waitingTasks, w.connection ≠ c

/-- When a step is possible: the functions test for the component and for `VALID`, memory is
allocated before it is used, a task waits through an open connection that is in no wait, and it
closes a connection to a semaphore only while it is in no wait, when its tokens are posted. -/
def Enabled (k : Components) : ComponentOp → Prop
  | .create _ _ => True
  | .timerStart _ _ => k.created .timer = true
  | .timerRemove _ => True
  | .eventCreate p => k.created .events = true ∧ (k.event p).valid = false
  | .eventDestroy _ => True
  | .eventOpen _ c p => (k.event p).valid = true ∧ k.Fresh c
  | .eventClose t c => ∃ p, k.connection c = .event t p
  | .eventWait c p => (k.event p).valid = true ∧ c ∉ (k.event p).waitingTasks ∧
      ∃ t, k.connection c = .event t p ∧ c ∈ k.blocks t
  | .eventLeave _ _ => True
  | .semCreate p _ _ _ => k.created .semaphores = true ∧ (k.sem p).valid = false
  | .semOpen _ c p => (k.sem p).valid = true ∧ k.Fresh c
  | .semClose t c => ∃ p, k.connection c = .sem t p ∧
      ((k.sem p).valid = true → (k.sem p).strict = true → c ∉ (k.sem p).tokens) ∧
      ∀ q, (k.sem q).valid = true → ∀ w ∈ (k.sem q).waitingTasks, w.connection ≠ c
  | .semOp p op => (k.sem p).Enabled op ∧
      ∀ t c timed prio, op = .wait t c timed prio → k.connection c = .sem t p ∧ c ∈ k.blocks t
  | .destroy _ _ => True

/-- The timer component and the event component are not both there, and a task that is destroyed
by another one holds no token of a strict semaphore. -/
def Cleanable (k : Components) (active td : ℕ) : Prop :=
  ¬ (k.created .events = true ∧ k.created .timer = true) ∧
    (active = td ∨ ∀ c ∈ k.blocks td, ∀ p, k.connection c = .sem td p →
      (k.sem p).valid = true → (k.sem p).strict = true → c ∉ (k.sem p).tokens)

/-- No connection to an event group is closed while its task waits, and each destruction meets
the condition. -/
def Regular (k : Components) : ComponentOp → Prop
  | .eventClose _ c => ∀ p, (k.event p).valid = true → c ∉ (k.event p).waitingTasks
  | .destroy active td => k.Cleanable active td
  | _ => True

/-- A run all of whose steps meet the condition. -/
def RegularRun : Components → List ComponentOp → Prop
  | _, [] => True
  | k, op :: ops => k.Enabled op ∧ k.Regular op ∧ RegularRun (k.apply op) ops

/-- No timer entry, no queued connection of the task is left. -/
structure Clean (k k' : Components) (td : ℕ) : Prop where
  timers : ∀ e ∈ k'.elapsedTimerEntries ++ k'.kernelTimerEntries, e.td ≠ td
  events : ∀ c p, k.connection c = .event td p → ∀ q, (k'.event q).valid = true →
    c ∉ (k'.event q).waitingTasks
  sems : ∀ c p, k.connection c = .sem td p → ∀ q, (k'.sem q).valid = true →
    ∀ w ∈ (k'.sem q).waitingTasks, w.connection ≠ c

/-- The destruction calls each created component's own cleanup function once, and cleans up. -/
def CleansUp (k : Components) (active td : ℕ) : Prop :=
  ∃ k' calls, k.destroy active td = some (k', calls) ∧
    (∀ c, k.created c = true → calls.count c = 1) ∧ Clean k k' td

end Components

/-! ## A semaphore during the cleanup -/

namespace SemStruct

variable {s s' s'' : SemStruct} {active c lost : ℕ}

/-- The cleanup only takes tasks and tokens away. -/
structure Shrunk (s s' : SemStruct) : Prop where
  td : s'.td = s.td
  strict : s'.strict = s.strict
  valid : s'.valid = true → s.valid = true
  waiting : ∀ w' ∈ s'.waitingTasks, ∃ w ∈ s.waitingTasks, w.connection = w'.connection
  tokens : ∀ c ∈ s'.tokens, c ∈ s.tokens

theorem Shrunk.refl (s : SemStruct) : s.Shrunk s :=
  ⟨rfl, rfl, id, fun w hw => ⟨w, hw, rfl⟩, fun _ => id⟩

theorem Shrunk.trans (h : s.Shrunk s') (h' : s'.Shrunk s'') : s.Shrunk s'' where
  td := h'.td.trans h.td
  strict := h'.strict.trans h.strict
  valid hv := h.valid (h'.valid hv)
  waiting w'' hw'' := by
    obtain ⟨w', hw', he'⟩ := h'.waiting w'' hw''
    obtain ⟨w, hw, he⟩ := h.waiting w' hw'
    exact ⟨w, hw, he.trans he'⟩
  tokens c hc := h.tokens c (h'.tokens c hc)

/-- The connection is out of the queue; a unit that was handed to its task is lost. -/
theorem leave_spec (h : s.Queued lost) (c : ℕ) :
    (∃ lost', (s.leave c).Queued lost') ∧ s.Shrunk (s.leave c) ∧
      ∀ w ∈ (s.leave c).waitingTasks, w.connection ≠ c := by
  have hsub : (s.leave c).waitingTasks.Sublist s.waitingTasks := List.eraseP_sublist
  have hnodup := h.nodup.sublist (hsub.map _)
  have hready : ∀ w ∈ (s.leave c).waitingTasks, w.available = true → w.blocked = false :=
    fun w hw => h.ready w (hsub.subset hw)
  refine ⟨?_, ⟨rfl, rfl, id, fun w hw => ⟨w, hsub.subset hw, rfl⟩, fun _ => id⟩, ?_⟩
  · refine ⟨lost + (s.waitingTasks.countP (·.available) -
      (s.leave c).waitingTasks.countP (·.available)), hnodup, hready, fun hvalid hstrict => ?_⟩
    have hle : (s.leave c).waitingTasks.countP (·.available) ≤
        s.waitingTasks.countP (·.available) := hsub.countP_le
    obtain ⟨hlt, htotal⟩ := h.counted hvalid hstrict
    refine ⟨hlt, ?_⟩
    change s.count + s.tokens.length + _ + _ = s.maxCount
    omega
  · intro w hw hwc
    by_cases hc : ∃ v ∈ s.waitingTasks, v.connection = c
    · obtain ⟨v, hv, hvc⟩ := hc
      obtain ⟨u, l₁, l₂, -, hu, hl, he⟩ :=
        List.exists_of_eraseP (p := fun w => w.connection == c) hv (by simpa using hvc)
      have hw' : w ∈ l₁ ++ l₂ := he ▸ hw
      have hperm : List.Perm s.waitingTasks (u :: (l₁ ++ l₂)) := hl ▸ List.perm_middle
      have hnew := (hperm.map SemWait.connection).nodup_iff.mp h.nodup
      rw [List.map_cons, List.nodup_cons] at hnew
      have huc : u.connection = c := by simpa using hu
      exact hnew.1 (huc.trans hwc.symm ▸ List.mem_map_of_mem hw')
    · exact hc ⟨w, hsub.subset hw, hwc⟩

theorem post_shrunk (h : s.Queued lost) (active c : ℕ) : s.Shrunk (s.post active c).1 := by
  rcases s.post_cases active c with ⟨hsame, -⟩ | ⟨hpost, hvalid, -⟩
  · rw [hsame]
    exact Shrunk.refl s
  rw [hpost]
  have htokens : ∀ c' ∈ s.tokens.erase c, c' ∈ s.tokens := fun c' => List.mem_of_mem_erase
  cases hwake : wake s.waitingTasks with
  | some l =>
    rw [giveBack_some (s := s.spend c) hwake]
    refine ⟨rfl, rfl, id, fun w hw => ?_, htokens⟩
    have hmem : w.connection ∈ s.waitingTasks.map SemWait.connection := by
      rw [← (wake_some hwake h.ready).1]
      exact List.mem_map_of_mem hw
    exact List.mem_map.mp hmem
  | none =>
    by_cases hend : (s.spend c).Ends
    · rw [giveBack_ends (s := s.spend c) hwake hend]
      exact ⟨rfl, rfl, fun _ => hvalid, fun w hw => ⟨w, hw, rfl⟩, htokens⟩
    · rw [giveBack_stays (s := s.spend c) hwake hend]
      exact ⟨rfl, rfl, id, fun w hw => ⟨w, hw, rfl⟩, htokens⟩

/-- The owner of a valid strict semaphore's token posts it. -/
theorem post_token (h : s.Queued lost) (hvalid : s.valid = true) (hstrict : s.strict = true)
    (htd : s.td c = active) (hc : c ∈ s.tokens) :
    (s.post active c).2 = .ok ∧ (s.post active c).1.tokens = s.tokens.erase c ∧
      ((s.post active c).1.valid = false → s.tokens.erase c = []) := by
  obtain ⟨hlt, htotal⟩ := h.returned hvalid hstrict hc
  have hpost : s.post active c = ((s.spend c).giveBack, .ok) := by
    unfold SemStruct.post
    have hne : s.tokens.count c ≠ 0 := (List.count_pos_iff.mpr hc).ne'
    rw [if_neg (by simp [htd]), if_neg (by simp [hne]), if_neg (by simp [hvalid]),
      if_neg (by omega)]
  rw [hpost]
  refine ⟨rfl, ?_⟩
  cases hwake : wake s.waitingTasks with
  | some l =>
    rw [giveBack_some (s := s.spend c) hwake]
    exact ⟨rfl, fun hinvalid => absurd (hvalid.symm.trans hinvalid) (by simp)⟩
  | none =>
    by_cases hend : (s.spend c).Ends
    · rw [giveBack_ends (s := s.spend c) hwake hend]
      refine ⟨rfl, fun _ => List.eq_nil_of_length_eq_zero ?_⟩
      have hfull : (s.count + 1) % 2 ^ 32 = s.maxCount := by
        simpa [spend, hstrict] using hend.2
      rw [Nat.mod_eq_of_lt (by omega)] at hfull
      omega
    · rw [giveBack_stays (s := s.spend c) hwake hend]
      exact ⟨rfl, fun hinvalid => absurd (hvalid.symm.trans hinvalid) (by simp)⟩

/-- The owner posts all its tokens, and the loop ends. -/
theorem postAll_spec (h : s.Queued lost) (hstrict : s.strict = true) (htd : s.td c = active)
    (hvalid : s.valid = true ∨ s.tokens = []) :
    ∃ s', s.postAll active c (s.tokens.count c) = some s' ∧ s'.Queued lost ∧ s.Shrunk s' := by
  generalize hn : s.tokens.count c = n
  induction n generalizing s with
  | zero => exact ⟨s, rfl, h, Shrunk.refl s⟩
  | succ n ih =>
    have hc : c ∈ s.tokens := List.count_pos_iff.mp (by omega)
    have hv : s.valid = true := by
      rcases hvalid with hv | hnil
      · exact hv
      · simp [hnil] at hc
    obtain ⟨hok, htokens, hnil⟩ := post_token h hv hstrict htd hc
    have hshrunk := post_shrunk h active c
    obtain ⟨s', hrest, hqueued, hshrunk'⟩ := ih (h.post (t := active) (c := c)).1
      (hshrunk.strict.trans hstrict) (by rw [hshrunk.td, htd])
      (by
        cases hend : (s.post active c).1.valid with
        | true => exact Or.inl rfl
        | false => exact Or.inr (htokens.trans (hnil hend)))
      (by rw [htokens, List.count_erase_self]; omega)
    refine ⟨s', ?_, hqueued, hshrunk.trans hshrunk'⟩
    rw [postAll, if_pos hok]
    exact hrest

theorem mem_of_map {l l' : List SemWait} {w : SemWait}
    (h : l'.map SemWait.connection = l.map SemWait.connection) (hw : w ∈ l') :
    ∃ v ∈ l, v.connection = w.connection := by
  have hmem : w.connection ∈ l.map SemWait.connection := h ▸ List.mem_map_of_mem hw
  exact List.mem_map.mp hmem

theorem create_frame {strict priorityQueueing : Bool} {initialCount : UInt32} {td : ℕ → ℕ}
    (h : create strict priorityQueueing initialCount td = some s) :
    s.td = td ∧ s.waitingTasks = [] := by
  unfold create at h
  by_cases hnone : strict = true ∧ initialCount = 0
  · simp [hnone] at h
  · rw [if_neg hnone] at h
    obtain rfl := Option.some.inj h
    exact ⟨rfl, rfl⟩

/-- What a step of the semaphore leaves alone: only a wait queues a connection. -/
theorem apply_frame (h : s.Queued lost) (op : SemOp) :
    (s.apply op).td = s.td ∧ ((s.apply op).valid = true → s.valid = true) ∧
      ∀ w ∈ (s.apply op).waitingTasks, (∃ v ∈ s.waitingTasks, v.connection = w.connection) ∨
        ∃ t timed prio, op = .wait t w.connection timed prio := by
  cases op with
  | wait t c timed prio =>
    have hold : ∀ w ∈ s.waitingTasks, (∃ v ∈ s.waitingTasks, v.connection = w.connection) ∨
        ∃ t' timed' prio', SemOp.wait t c timed prio = .wait t' w.connection timed' prio' :=
      fun w hw => Or.inl ⟨w, hw, rfl⟩
    rw [apply]
    unfold SemStruct.wait
    split_ifs
    · exact ⟨rfl, id, hold⟩
    · exact ⟨rfl, id, hold⟩
    · exact ⟨rfl, id, hold⟩
    · refine ⟨rfl, id, fun w hw => ?_⟩
      rcases List.mem_cons.mp ((s.enqueue_perm prio _).mem_iff.mp hw) with rfl | hw
      · exact Or.inr ⟨t, timed, prio, rfl⟩
      · exact hold w hw
    · exact ⟨rfl, id, hold⟩
  | timeout c =>
    exact ⟨rfl, id, fun w hw => Or.inl (mem_of_map ((readied_timeout s c).spec h.ready).1 hw)⟩
  | resume c =>
    rw [apply]
    unfold SemStruct.resume
    cases hfind : s.waitingTasks.find? fun w => w.connection == c with
    | none => exact ⟨rfl, id, fun w hw => Or.inl ⟨w, hw, rfl⟩⟩
    | some v =>
      have herase : ∀ w ∈ s.waitingTasks.erase v,
          ∃ u ∈ s.waitingTasks, u.connection = w.connection :=
        fun w hw => ⟨w, List.mem_of_mem_erase hw, rfl⟩
      simp only
      split_ifs <;> exact ⟨rfl, id, fun w hw => Or.inl (herase w hw)⟩
  | post t c =>
    have hshrunk := post_shrunk h t c
    exact ⟨hshrunk.td, hshrunk.valid, fun w hw => Or.inl (hshrunk.waiting w hw)⟩
  | destroy force =>
    by_cases hinvalid : s.valid = false
    · rw [apply]
      unfold SemStruct.destroy
      rw [if_pos hinvalid]
      exact ⟨rfl, id, fun w hw => Or.inl ⟨w, hw, rfl⟩⟩
    have hvalid : s.valid = true := by simpa using hinvalid
    refine ⟨?_, fun _ => hvalid, fun w hw => Or.inl ?_⟩
    · rw [apply, destroy_eq s force hvalid]
      split_ifs <;> rfl
    · rw [apply, destroy_waitingTasks hvalid] at hw
      exact mem_of_map ((readied_afterForce s force).spec h.ready).1 hw
  | free => exact ⟨rfl, id, fun w hw => Or.inl ⟨w, hw, rfl⟩⟩

/-- Another task cannot post, and the loop never ends. -/
theorem postAll_foreign (hstrict : s.strict = true) (htd : s.td c ≠ active) {n : ℕ}
    (h : s.postAll active c n = some s') : n = 0 ∧ s' = s := by
  cases n with
  | zero => exact ⟨rfl, (Option.some.inj h).symm⟩
  | succ n =>
    have hpost : (s.post active c).2 = .invalidSemaphoreHandle := by
      unfold SemStruct.post
      rw [if_pos ⟨hstrict, htd⟩]
    rw [postAll, if_neg (by simp [hpost])] at h
    exact absurd h (by simp)

end SemStruct

/-! ## The cleanup functions -/

namespace Components

variable {k k' k'' : Components} {active td c t p : ℕ} {l : List ℕ} {calls : List Component}
  {comp : Component} {op : ComponentOp} {ops : List ComponentOp} {td₀ : ℕ → ℕ}

/-- The cleanup only takes timer entries, connections and tokens away. -/
structure Shrunk (k k' : Components) : Prop where
  created : k'.created = k.created
  cleanup : k'.cleanup = k.cleanup
  blocks : k'.blocks = k.blocks
  connection : k'.connection = k.connection
  timers : k'.elapsedTimerEntries ++ k'.kernelTimerEntries ⊆
    k.elapsedTimerEntries ++ k.kernelTimerEntries
  eventValid : ∀ p, (k'.event p).valid = (k.event p).valid
  queues : ∀ p, (k'.event p).waitingTasks.Sublist (k.event p).waitingTasks
  sems : ∀ p, (k.sem p).Shrunk (k'.sem p)

theorem Shrunk.refl (k : Components) : k.Shrunk k :=
  ⟨rfl, rfl, rfl, rfl, List.Subset.refl _, fun _ => rfl, fun _ => List.Sublist.refl _,
    fun _ => SemStruct.Shrunk.refl _⟩

theorem Shrunk.trans (h : k.Shrunk k') (h' : k'.Shrunk k'') : k.Shrunk k'' where
  created := h'.created.trans h.created
  cleanup := h'.cleanup.trans h.cleanup
  blocks := h'.blocks.trans h.blocks
  connection := h'.connection.trans h.connection
  timers := List.Subset.trans h'.timers h.timers
  eventValid p := (h'.eventValid p).trans (h.eventValid p)
  queues p := (h'.queues p).trans (h.queues p)
  sems p := (h.sems p).trans (h'.sems p)

/-- What lets the cleanup of the task end. -/
structure Fit (k : Components) (active td : ℕ) : Prop where
  account : ∀ p, ∃ lost, (k.sem p).Queued lost
  tds : ∀ c t p, k.connection c = .sem t p → (k.sem p).td c = t
  nodup : ∀ p, (k.event p).waitingTasks.Nodup
  posted : active = td ∨ ∀ c ∈ k.blocks td, ∀ p, k.connection c = .sem td p →
    (k.sem p).valid = true → (k.sem p).strict = true → c ∉ (k.sem p).tokens

theorem Fit.shrunk (h : k.Fit active td) (hs : k.Shrunk k')
    (haccount : ∀ p, ∃ lost, (k'.sem p).Queued lost) : k'.Fit active td where
  account := haccount
  tds c t p hc := by
    rw [(hs.sems p).td]
    exact h.tds c t p (hs.connection ▸ hc)
  nodup p := (h.nodup p).sublist (hs.queues p)
  posted := by
    refine h.posted.imp id fun hposted c hc p hconn hvalid hstrict htoken => ?_
    rw [hs.blocks] at hc
    rw [hs.connection] at hconn
    exact hposted c hc p hconn ((hs.sems p).valid hvalid) ((hs.sems p).strict ▸ hstrict)
      ((hs.sems p).tokens c htoken)

theorem timerCleanup_spec (k : Components) (td : ℕ) :
    k.Shrunk (k.timerCleanup td) ∧ (k.timerCleanup td).sem = k.sem ∧
      (k.created .timer = true →
        ∀ e ∈ (k.timerCleanup td).elapsedTimerEntries ++ (k.timerCleanup td).kernelTimerEntries,
          e.td ≠ td) := by
  unfold timerCleanup
  by_cases hc : k.created .timer = false
  · rw [if_pos hc]
    exact ⟨Shrunk.refl k, rfl, fun h => absurd (hc.symm.trans h) (by simp)⟩
  · rw [if_neg hc]
    refine ⟨⟨rfl, rfl, rfl, rfl, ?_, fun _ => rfl, fun _ => List.Sublist.refl _,
      fun _ => SemStruct.Shrunk.refl _⟩, rfl, fun _ e he => ?_⟩
    · exact (List.filter_sublist.append List.filter_sublist).subset
    · rcases List.mem_append.mp he with he | he
      · simpa using (List.mem_filter.mp he).2
      · simpa using (List.mem_filter.mp he).2

theorem eventBlock_spec (k : Components) (td c : ℕ) :
    k.Shrunk (k.eventBlock td c) ∧ (k.eventBlock td c).sem = k.sem ∧
      ((∀ p, (k.event p).waitingTasks.Nodup) → ∀ p, k.connection c = .event td p →
        (k.event p).valid = true → c ∉ ((k.eventBlock td c).event p).waitingTasks) := by
  unfold eventBlock
  cases hconn : k.connection c with
  | event t p =>
    simp only
    by_cases hblock : t = td ∧ (k.event p).valid = true
    · rw [if_pos hblock]
      refine ⟨⟨rfl, rfl, rfl, rfl, List.Subset.refl _, fun q => ?_, fun q => ?_,
        fun _ => SemStruct.Shrunk.refl _⟩, rfl, fun hnodup q hq _ => ?_⟩
      · by_cases hq : q = p
        · simp [hq]
        · simp [hq]
      · by_cases hq : q = p
        · simpa [hq] using List.erase_sublist
        · simp [hq]
      · obtain ⟨-, rfl⟩ := Connection.event.inj hq
        simpa using (hnodup p).not_mem_erase
    · rw [if_neg hblock]
      refine ⟨Shrunk.refl k, rfl, fun _ q hq hvalid => ?_⟩
      obtain ⟨rfl, rfl⟩ := Connection.event.inj hq
      exact absurd ⟨rfl, hvalid⟩ hblock
  | sem t p => exact ⟨Shrunk.refl k, rfl, fun _ q hq => absurd hq (by simp)⟩
  | other => exact ⟨Shrunk.refl k, rfl, fun _ q hq => absurd hq (by simp)⟩

theorem eventBlocks_spec (td : ℕ) (l : List ℕ) (k : Components) :
    k.Shrunk (l.foldl (fun k c => k.eventBlock td c) k) ∧
      (l.foldl (fun k c => k.eventBlock td c) k).sem = k.sem ∧
      ((∀ p, (k.event p).waitingTasks.Nodup) → ∀ c ∈ l, ∀ p, k.connection c = .event td p →
        (k.event p).valid = true →
          c ∉ ((l.foldl (fun k c => k.eventBlock td c) k).event p).waitingTasks) := by
  induction l generalizing k with
  | nil => exact ⟨Shrunk.refl k, rfl, by simp⟩
  | cons b l ih =>
    obtain ⟨hshrunk, hsem, hgone⟩ := k.eventBlock_spec td b
    obtain ⟨hshrunk', hsem', hgone'⟩ := ih (k.eventBlock td b)
    refine ⟨hshrunk.trans hshrunk', hsem'.trans hsem, fun hnodup c hc p hconn hvalid => ?_⟩
    rcases List.mem_cons.mp hc with rfl | hc
    · exact fun hmem => hgone hnodup p hconn hvalid ((hshrunk'.queues p).subset hmem)
    · exact hgone' (fun p => (hnodup p).sublist (hshrunk.queues p)) c hc p
        (hshrunk.connection ▸ hconn) ((hshrunk.eventValid p).trans hvalid)

/-- A change of one semaphore. -/
theorem shrunk_sem {s : SemStruct} (h : (k.sem p).Shrunk s) :
    k.Shrunk { k with sem := update k.sem p s } := by
  refine ⟨rfl, rfl, rfl, rfl, List.Subset.refl _, fun _ => rfl, fun _ => List.Sublist.refl _,
    fun q => ?_⟩
  by_cases hq : q = p
  · subst hq
    simpa using h
  · simpa [hq] using SemStruct.Shrunk.refl _

theorem semBlock_spec (h : k.Fit active td) (hc : c ∈ k.blocks td) :
    ∃ k', k.semBlock active td c = some k' ∧ k.Shrunk k' ∧ k'.Fit active td ∧
      ∀ p, k.connection c = .sem td p → (k'.sem p).valid = true →
        ∀ w ∈ (k'.sem p).waitingTasks, w.connection ≠ c := by
  unfold semBlock
  cases hconn : k.connection c with
  | event t p => exact ⟨k, rfl, Shrunk.refl k, h, fun q hq => absurd hq (by simp)⟩
  | other => exact ⟨k, rfl, Shrunk.refl k, h, fun q hq => absurd hq (by simp)⟩
  | sem t p =>
    simp only
    by_cases hblock : t = td ∧ (k.sem p).valid = true
    case neg =>
      rw [if_neg hblock]
      refine ⟨k, rfl, Shrunk.refl k, h, fun q hq hvalid => ?_⟩
      obtain ⟨rfl, rfl⟩ := Connection.sem.inj hq
      exact absurd ⟨rfl, hvalid⟩ hblock
    rw [if_pos hblock]
    obtain ⟨rfl, hvalid⟩ := hblock
    obtain ⟨lost, hqueued⟩ := h.account p
    obtain ⟨⟨lost', hleft⟩, hshrunk, hgone⟩ := SemStruct.leave_spec hqueued c
    obtain ⟨s', hs', hqueued', hshrunk'⟩ : ∃ s',
        (if ((k.sem p).leave c).strict = true then
          ((k.sem p).leave c).postAll active c (((k.sem p).leave c).tokens.count c)
        else some ((k.sem p).leave c)) = some s' ∧ s'.Queued lost' ∧
          ((k.sem p).leave c).Shrunk s' := by
      by_cases hstrict : ((k.sem p).leave c).strict = true
      · rw [if_pos hstrict]
        rcases h.posted with rfl | hposted
        · exact SemStruct.postAll_spec hleft hstrict (h.tds c active p hconn) (Or.inl hvalid)
        · have hnone : ((k.sem p).leave c).tokens.count c = 0 :=
            List.count_eq_zero_of_not_mem (hposted c hc p hconn hvalid hstrict)
          rw [hnone]
          exact ⟨_, rfl, hleft, SemStruct.Shrunk.refl _⟩
      · rw [if_neg hstrict]
        exact ⟨_, rfl, hleft, SemStruct.Shrunk.refl _⟩
    rw [hs']
    have hall := shrunk_sem (hshrunk.trans hshrunk')
    refine ⟨_, rfl, hall, h.shrunk hall fun q => ?_, fun q hq _ w hw => ?_⟩
    · by_cases hq : q = p
      · subst hq
        exact ⟨lost', by simpa using hqueued'⟩
      · simpa [hq] using h.account q
    · obtain ⟨-, rfl⟩ := Connection.sem.inj hq
      have hw' : w ∈ s'.waitingTasks := by simpa using hw
      obtain ⟨v, hv, hvw⟩ := hshrunk'.waiting w hw'
      exact hvw ▸ hgone v hv

theorem semBlocks_spec (h : k.Fit active td) (hl : ∀ c ∈ l, c ∈ k.blocks td) :
    ∃ k', semBlocks active td l k = some k' ∧ k.Shrunk k' ∧ k'.Fit active td ∧
      ∀ c ∈ l, ∀ p, k.connection c = .sem td p → (k'.sem p).valid = true →
        ∀ w ∈ (k'.sem p).waitingTasks, w.connection ≠ c := by
  induction l generalizing k with
  | nil => exact ⟨k, rfl, Shrunk.refl k, h, by simp⟩
  | cons b l ih =>
    obtain ⟨k₁, hb, hshrunk, hfit, hgone⟩ := semBlock_spec h (hl b (by simp))
    obtain ⟨k₂, hrest, hshrunk', hfit', hgone'⟩ := ih hfit fun c hc => by
      rw [hshrunk.blocks]
      exact hl c (List.mem_cons_of_mem _ hc)
    refine ⟨k₂, ?_, hshrunk.trans hshrunk', hfit', fun c hc p hconn hvalid w hw => ?_⟩
    · rw [semBlocks, hb]
      exact hrest
    · rcases List.mem_cons.mp hc with rfl | hc
      · obtain ⟨v, hv, hvw⟩ := (hshrunk'.sems p).waiting w hw
        exact hvw ▸ hgone p hconn ((hshrunk'.sems p).valid hvalid) v hv
      · exact hgone' c hc p (hshrunk.connection ▸ hconn) hvalid w hw

/-- What a cleanup function takes away. -/
def Done (k : Components) (td : ℕ) : Component → Prop
  | .timer => k.created .timer = true →
      ∀ e ∈ k.elapsedTimerEntries ++ k.kernelTimerEntries, e.td ≠ td
  | .events => ∀ c ∈ k.blocks td, ∀ p, k.connection c = .event td p →
      (k.event p).valid = true → c ∉ (k.event p).waitingTasks
  | .semaphores => ∀ c ∈ k.blocks td, ∀ p, k.connection c = .sem td p →
      (k.sem p).valid = true → ∀ w ∈ (k.sem p).waitingTasks, w.connection ≠ c
  | _ => True

theorem Done.shrunk (h : k.Done td comp) (hs : k.Shrunk k') : k'.Done td comp := by
  cases comp with
  | timer =>
    intro hc e he
    exact h (hs.created ▸ hc) e (hs.timers he)
  | events =>
    intro c hc p hconn hvalid hmem
    rw [hs.blocks] at hc
    rw [hs.connection] at hconn
    exact h c hc p hconn ((hs.eventValid p).symm.trans hvalid) ((hs.queues p).subset hmem)
  | semaphores =>
    intro c hc p hconn hvalid w hw
    rw [hs.blocks] at hc
    rw [hs.connection] at hconn
    obtain ⟨v, hv, hvw⟩ := (hs.sems p).waiting w hw
    exact hvw ▸ h c hc p hconn ((hs.sems p).valid hvalid) v hv
  | mutexes => trivial
  | watchdog => trivial
  | messages => trivial
  | partitions => trivial

theorem clean_spec (h : k.Fit active td) (comp : Component) :
    ∃ k', k.clean active td comp = some k' ∧ k.Shrunk k' ∧ k'.Fit active td ∧
      k'.Done td comp := by
  cases comp with
  | semaphores =>
    obtain ⟨k', hk', hshrunk, hfit, hgone⟩ := semBlocks_spec h fun c hc => hc
    refine ⟨k', hk', hshrunk, hfit, fun c hc p hconn => hgone c (hshrunk.blocks ▸ hc) p ?_⟩
    exact hshrunk.connection ▸ hconn
  | events =>
    obtain ⟨hshrunk, hsem, hgone⟩ := eventBlocks_spec td (k.blocks td) k
    refine ⟨_, rfl, hshrunk, h.shrunk hshrunk ?_, fun c hc p hconn hvalid => ?_⟩
    · intro p
      rw [eventCleanup, hsem]
      exact h.account p
    · exact hgone h.nodup c (hshrunk.blocks ▸ hc) p (hshrunk.connection ▸ hconn)
        ((hshrunk.eventValid p).symm.trans hvalid)
  | timer =>
    obtain ⟨hshrunk, hsem, hgone⟩ := k.timerCleanup_spec td
    refine ⟨_, rfl, hshrunk, h.shrunk hshrunk ?_, fun hc => hgone (hshrunk.created ▸ hc)⟩
    intro p
    rw [hsem]
    exact h.account p
  | mutexes => exact ⟨k, rfl, Shrunk.refl k, h, trivial⟩
  | watchdog => exact ⟨k, rfl, Shrunk.refl k, h, trivial⟩
  | messages => exact ⟨k, rfl, Shrunk.refl k, h, trivial⟩
  | partitions => exact ⟨k, rfl, Shrunk.refl k, h, trivial⟩

/-- The loop over the slots ends, and what each called function takes away stays away. -/
theorem cleanupLoop_spec (h : k.Fit active td) :
    ∃ k', cleanupLoop active td l k = some (k', l.filterMap k.cleanup) ∧ k.Shrunk k' ∧
      k'.Fit active td ∧ ∀ comp ∈ l.filterMap k.cleanup, k'.Done td comp := by
  induction l generalizing k with
  | nil => exact ⟨k, rfl, Shrunk.refl k, h, by simp⟩
  | cons i l ih =>
    cases hi : k.cleanup i with
    | none =>
      obtain ⟨k', hk', hrest⟩ := ih h
      refine ⟨k', ?_, ?_⟩
      · simp only [cleanupLoop, hi, List.filterMap_cons]
        exact hk'
      · simpa only [hi, List.filterMap_cons] using hrest
    | some comp =>
      obtain ⟨k₁, hclean, hshrunk, hfit, hdone⟩ := clean_spec h comp
      obtain ⟨k', hk', hshrunk', hfit', hdone'⟩ := ih hfit
      rw [hshrunk.cleanup] at hk' hdone'
      refine ⟨k', ?_, hshrunk.trans hshrunk', hfit', ?_⟩
      · simp [cleanupLoop, hi, hclean, hk']
      · intro comp' hcomp
        rw [List.filterMap_cons, hi, List.mem_cons] at hcomp
        rcases hcomp with rfl | hcomp
        · exact hdone.shrunk hshrunk'
        · exact hdone' comp' hcomp

/-! ## Runs -/

/-- What is kept between the steps of a regular run. -/
structure Held (k : Components) : Prop where
  registered : ∀ i c, k.cleanup i = some c → k.created c = true ∧ c.cleanupSlot = i
  slots : ∀ c, k.created c = true → k.cleanup c.cleanupSlot ≠ none
  timers : k.created .timer = false → k.elapsedTimerEntries ++ k.kernelTimerEntries = []
  events : ∀ p, (k.event p).valid = true → k.created .events = true
  nodup : ∀ p, (k.event p).waitingTasks.Nodup
  queued : ∀ p, (k.event p).valid = true → ∀ c ∈ (k.event p).waitingTasks,
    ∃ t, k.connection c = .event t p ∧ c ∈ k.blocks t
  sems : ∀ p, (k.sem p).valid = true → k.created .semaphores = true
  account : ∀ p, ∃ lost, (k.sem p).Queued lost
  waits : ∀ p, (k.sem p).valid = true → ∀ w ∈ (k.sem p).waitingTasks,
    ∃ t, k.connection w.connection = .sem t p ∧ w.connection ∈ k.blocks t
  tds : ∀ c t p, k.connection c = .sem t p → (k.sem p).td c = t
  owned : ∀ t, ∀ c ∈ k.blocks t, ∃ p, k.connection c = .event t p ∨ k.connection c = .sem t p
  opened : ∀ c t p, k.connection c = .event t p ∨ k.connection c = .sem t p → c ∈ k.blocks t

theorem Held.fit (h : k.Held) (hposted : active = td ∨ ∀ c ∈ k.blocks td, ∀ p,
    k.connection c = .sem td p → (k.sem p).valid = true → (k.sem p).strict = true →
      c ∉ (k.sem p).tokens) : k.Fit active td :=
  ⟨h.account, h.tds, h.nodup, hposted⟩

theorem boot_held (td₀ : ℕ → ℕ) : (boot td₀).Held where
  registered := by simp [boot]
  slots := by simp [boot]
  timers := by simp [boot]
  events := by simp [boot]
  nodup := by simp [boot]
  queued := by simp [boot]
  sems := by simp [boot]
  account _ := ⟨0, by simp [boot], by simp [boot], by simp [boot]⟩
  waits := by simp [boot]
  tds := by simp [boot]
  owned := by simp [boot]
  opened := by simp [boot]

theorem cleanupSlot_inj {c c' : Component} (h : c.cleanupSlot = c'.cleanupSlot) :
    c = c' ∨ c = .events ∧ c' = .timer ∨ c = .timer ∧ c' = .events := by
  revert h
  cases c <;> cases c' <;> simp [Component.cleanupSlot, Component.index]

theorem Held.create (h : k.Held) (comp : Component) (done : Bool) : (k.create comp done).Held := by
  unfold Components.create
  by_cases hc : k.created comp = true
  · rwa [if_pos hc]
  rw [if_neg hc]
  by_cases hdone : done = true
  case neg => rwa [if_neg hdone]
  rw [if_pos hdone]
  have hgrow : ∀ c, k.created c = true → update k.created comp true c = true := by
    intro c hk
    by_cases he : c = comp
    · simp [he]
    · simpa [he] using hk
  refine ⟨fun i c hi => ?_, fun c hk => ?_, fun hk => h.timers ?_, ?_, h.nodup, h.queued, ?_,
    h.account, h.waits, h.tds, h.owned, h.opened⟩
  · by_cases he : i = comp.cleanupSlot
    · subst he
      obtain rfl : comp = c := by simpa using hi
      simp
    · obtain ⟨hcreated, hslot⟩ := h.registered i c (by simpa [he] using hi)
      exact ⟨hgrow c hcreated, hslot⟩
  · by_cases he : c.cleanupSlot = comp.cleanupSlot
    · simp [he]
    · have hne : c ≠ comp := by
        rintro rfl
        exact he rfl
      simpa [he] using h.slots c (by simpa [hne] using hk)
  · by_contra hne
    have := hgrow .timer (by simpa using hne)
    exact absurd (this.symm.trans hk) (by simp)
  · exact fun p hp => hgrow _ (h.events p hp)
  · exact fun p hp => hgrow _ (h.sems p hp)

/-- Opening a connection in a fresh block. -/
theorem Held.open (h : k.Held) (hfresh : k.Fresh c) {conn : Connection}
    (hconn : conn = .event t p ∨ conn = .sem t p ∧ (k.sem p).td c = t) :
    Held { k with
      blocks := update k.blocks t (c :: k.blocks t)
      connection := update k.connection c conn } := by
  have hkeep : ∀ b u, b ∈ k.blocks u → b ≠ c := by
    rintro b u hb rfl
    exact hfresh.1 u hb
  have hmem : ∀ b u, b ∈ k.blocks u → b ∈ update k.blocks t (c :: k.blocks t) u := by
    intro b u hb
    by_cases hu : u = t
    · subst hu
      simpa using Or.inr hb
    · simpa [hu] using hb
  refine ⟨h.registered, h.slots, h.timers, h.events, h.nodup, fun q hq b hb => ?_, h.sems,
    h.account, fun q hq w hw => ?_, fun b u q hb => ?_, fun u b hb => ?_, fun b u q hb => ?_⟩
  · obtain ⟨u, hu, hbu⟩ := h.queued q hq b hb
    exact ⟨u, by simpa [hkeep b u hbu] using hu, hmem b u hbu⟩
  · obtain ⟨u, hu, hbu⟩ := h.waits q hq w hw
    exact ⟨u, by simpa [hkeep _ u hbu] using hu, hmem _ u hbu⟩
  · by_cases he : b = c
    · subst he
      have hb' : conn = .sem u q := by simpa using hb
      rcases hconn with rfl | ⟨rfl, htd⟩
      · simp at hb'
      · obtain ⟨rfl, rfl⟩ := Connection.sem.inj hb'
        exact htd
    · exact h.tds b u q (by simpa [he] using hb)
  · by_cases he : b = c
    · subst he
      by_cases hu : u = t
      · subst hu
        refine ⟨p, ?_⟩
        rcases hconn with rfl | ⟨rfl, -⟩ <;> simp
      · exact absurd (by simpa [hu] using hb) (hfresh.1 u)
    · have hb' : b ∈ k.blocks u := by
        by_cases hu : u = t
        · subst hu
          simpa [he] using hb
        · simpa [hu] using hb
      simpa [he] using h.owned u b hb'
  · by_cases he : b = c
    · subst he
      have hut : u = t := by
        rcases hconn with rfl | ⟨rfl, -⟩ <;> simp_all
      simp [hut]
    · exact hmem b u (h.opened b u q (by simpa [he] using hb))

/-- Closing a connection that is in no queue. -/
theorem Held.close (h : k.Held) (hown : ∀ u, c ∈ k.blocks u → u = t)
    (hevents : ∀ p, (k.event p).valid = true → c ∉ (k.event p).waitingTasks)
    (hsems : ∀ p, (k.sem p).valid = true → ∀ w ∈ (k.sem p).waitingTasks, w.connection ≠ c) :
    Held { k with
      blocks := update k.blocks t ((k.blocks t).filter fun b => b ≠ c)
      connection := update k.connection c .other } := by
  have hmem : ∀ b u, b ≠ c →
      (b ∈ update k.blocks t ((k.blocks t).filter fun b => b ≠ c) u ↔ b ∈ k.blocks u) := by
    intro b u hb
    by_cases hu : u = t
    · subst hu
      simp [hb]
    · simp [hu]
  refine ⟨h.registered, h.slots, h.timers, h.events, h.nodup, fun q hq b hb => ?_, h.sems,
    h.account, fun q hq w hw => ?_, fun b u q hb => ?_, fun u b hb => ?_, fun b u q hb => ?_⟩
  · have hne : b ≠ c := by
      rintro rfl
      exact hevents q hq hb
    obtain ⟨u, hu, hbu⟩ := h.queued q hq b hb
    exact ⟨u, by simpa [hne] using hu, (hmem b u hne).mpr hbu⟩
  · have hne := hsems q hq w hw
    obtain ⟨u, hu, hbu⟩ := h.waits q hq w hw
    exact ⟨u, by simpa [hne] using hu, (hmem _ u hne).mpr hbu⟩
  · by_cases he : b = c
    · simp [he] at hb
    · exact h.tds b u q (by simpa [he] using hb)
  · have hne : b ≠ c := by
      rintro rfl
      by_cases hu : u = t
      · subst hu
        simp at hb
      · exact hu (hown u (by simpa [hu] using hb))
    simpa [hne] using h.owned u b ((hmem b u hne).mp hb)
  · have hne : b ≠ c := by
      rintro rfl
      simp at hb
    exact (hmem b u hne).mpr (h.opened b u q (by simpa [hne] using hb))

/-- A connection has one owner. -/
theorem Held.owner (h : k.Held) (hconn : k.connection c = .event t p ∨ k.connection c = .sem t p) :
    ∀ u, c ∈ k.blocks u → u = t := by
  intro u hu
  obtain ⟨q, hq⟩ := h.owned u c hu
  rcases hconn with hconn | hconn
  · rw [hconn] at hq
    rcases hq with hq | hq
    · exact (Connection.event.inj hq).1.symm
    · simp at hq
  · rw [hconn] at hq
    rcases hq with hq | hq
    · simp at hq
    · exact (Connection.sem.inj hq).1.symm

/-- A change of one event group's queue. -/
theorem Held.event (h : k.Held) {e : EventQueue} (hnodup : e.waitingTasks.Nodup)
    (hvalid : e.valid = true → k.created .events = true ∧
      ∀ c ∈ e.waitingTasks, ∃ t, k.connection c = .event t p ∧ c ∈ k.blocks t) :
    Held { k with event := update k.event p e } := by
  refine ⟨h.registered, h.slots, h.timers, fun q hq => ?_, fun q => ?_, fun q hq => ?_, h.sems,
    h.account, h.waits, h.tds, h.owned, h.opened⟩
  · by_cases he : q = p
    · subst he
      exact (hvalid (by simpa using hq)).1
    · exact h.events q (by simpa [he] using hq)
  · by_cases he : q = p
    · subst he
      simpa using hnodup
    · simpa [he] using h.nodup q
  · by_cases he : q = p
    · subst he
      simpa using (hvalid (by simpa using hq)).2
    · simpa [he] using h.queued q (by simpa [he] using hq)

/-- A change of one semaphore. -/
theorem Held.sem (h : k.Held) {s : SemStruct} (haccount : ∃ lost, s.Queued lost)
    (htd : s.td = (k.sem p).td)
    (hvalid : s.valid = true → k.created .semaphores = true ∧ ∀ w ∈ s.waitingTasks,
      ∃ t, k.connection w.connection = .sem t p ∧ w.connection ∈ k.blocks t) :
    Held { k with sem := update k.sem p s } := by
  refine ⟨h.registered, h.slots, h.timers, h.events, h.nodup, h.queued, fun q hq => ?_,
    fun q => ?_, fun q hq => ?_, fun c t q hc => ?_, h.owned, h.opened⟩
  · by_cases he : q = p
    · subst he
      exact (hvalid (by simpa using hq)).1
    · exact h.sems q (by simpa [he] using hq)
  · by_cases he : q = p
    · subst he
      simpa using haccount
    · simpa [he] using h.account q
  · by_cases he : q = p
    · subst he
      simpa using (hvalid (by simpa using hq)).2
    · simpa [he] using h.waits q (by simpa [he] using hq)
  · by_cases he : q = p
    · subst he
      simpa [htd] using h.tds c t q hc
    · simpa [he] using h.tds c t q hc

/-- The `TD_PTR` of a block that holds no connection to the semaphore. -/
theorem Held.setTd (h : k.Held) (hconn : ∀ u, k.connection c ≠ .sem u p) :
    Held { k with sem := update k.sem p { k.sem p with td := update (k.sem p).td c t } } := by
  obtain ⟨lost, hqueued⟩ := h.account p
  refine ⟨h.registered, h.slots, h.timers, h.events, h.nodup, h.queued, fun q hq => ?_,
    fun q => ?_, fun q hq => ?_, fun b u q hb => ?_, h.owned, h.opened⟩
  · by_cases he : q = p
    · subst he
      exact h.sems q (by simpa using hq)
    · exact h.sems q (by simpa [he] using hq)
  · by_cases he : q = p
    · subst he
      exact ⟨lost, by simpa using ⟨hqueued.nodup, hqueued.ready, hqueued.counted⟩⟩
    · simpa [he] using h.account q
  · by_cases he : q = p
    · subst he
      simpa using h.waits q (by simpa using hq)
    · simpa [he] using h.waits q (by simpa [he] using hq)
  · by_cases he : q = p
    · subst he
      have hne : b ≠ c := by
        rintro rfl
        exact hconn u hb
      simpa [hne] using h.tds b u q hb
    · simpa [he] using h.tds b u q hb

/-- The functions that a destruction calls: one for each slot, and where the timer and the event
component are not both there, that of each component. -/
theorem Held.mem_calls (h : k.Held)
    (hboth : ¬ (k.created .events = true ∧ k.created .timer = true)) {comp : Component}
    (hcomp : k.created comp = true) :
    comp ∈ (List.range maxKernelComponents).filterMap k.cleanup := by
  obtain ⟨comp', hslot⟩ := Option.ne_none_iff_exists'.mp (h.slots comp hcomp)
  obtain ⟨hcomp', heq⟩ := h.registered _ comp' hslot
  refine List.mem_filterMap.mpr ⟨comp.cleanupSlot, ?_, ?_⟩
  · cases comp <;> decide
  · rcases cleanupSlot_inj heq with rfl | ⟨rfl, rfl⟩ | ⟨rfl, rfl⟩
    · exact hslot
    · exact absurd ⟨hcomp', hcomp⟩ hboth
    · exact absurd ⟨hcomp, hcomp'⟩ hboth

theorem Held.nodup_calls (h : k.Held) :
    ((List.range maxKernelComponents).filterMap k.cleanup).Nodup := by
  refine List.Nodup.filterMap ?_ List.nodup_range
  intro i j comp hi hj
  rw [← (h.registered i comp hi).2, ← (h.registered j comp hj).2]

/-- What a destruction that meets the condition leaves. -/
theorem Held.destroyed (h : k.Held) (hclean : k.Cleanable active td) :
    ∃ k', k.destroy active td =
        some (k'.freeBlocks td, (List.range maxKernelComponents).filterMap k.cleanup) ∧
      k.Shrunk k' ∧ k'.Fit active td ∧ Clean k k' td := by
  obtain ⟨k', hloop, hshrunk, hfit, hdone⟩ :=
    cleanupLoop_spec (l := List.range maxKernelComponents) (h.fit hclean.2)
  have hcalled : ∀ comp, k.created comp = true →
      comp ∈ (List.range maxKernelComponents).filterMap k.cleanup :=
    fun _ hcomp => h.mem_calls hclean.1 hcomp
  refine ⟨k', by rw [Components.destroy, hloop]; rfl, hshrunk, hfit, ?_, ?_, ?_⟩
  · cases hc : k.created .timer with
    | true => exact hdone .timer (hcalled .timer hc) (hshrunk.created ▸ hc)
    | false =>
      intro e he
      have hmem := hshrunk.timers he
      rw [h.timers hc] at hmem
      exact absurd hmem (by simp)
  · intro c p hconn q hq hmem
    have hvalid : (k.event q).valid = true := (hshrunk.eventValid q).symm.trans hq
    obtain ⟨t, ht, hblock⟩ := h.queued q hvalid c ((hshrunk.queues q).subset hmem)
    obtain ⟨rfl, rfl⟩ := Connection.event.inj (hconn.symm.trans ht)
    exact hdone .events (hcalled .events (h.events p hvalid)) c (hshrunk.blocks ▸ hblock) p
      (hshrunk.connection ▸ hconn) hq hmem
  · rintro c p hconn q hq w hw rfl
    have hvalid := (hshrunk.sems q).valid hq
    obtain ⟨v, hv, hvw⟩ := (hshrunk.sems q).waiting w hw
    obtain ⟨t, ht, hblock⟩ := h.waits q hvalid v hv
    rw [hvw] at ht hblock
    obtain ⟨rfl, rfl⟩ := Connection.sem.inj (hconn.symm.trans ht)
    exact hdone .semaphores (hcalled .semaphores (h.sems p hvalid)) w.connection
      (hshrunk.blocks ▸ hblock) p (hshrunk.connection ▸ hconn) hq w hw rfl

/-- The memory of the task is freed when it is in no queue. -/
theorem Held.freed (h : k.Held) (hshrunk : k.Shrunk k') (hfit : k'.Fit active td)
    (hclean : Clean k k' td) : (k'.freeBlocks td).Held := by
  have hother : ∀ c t p, k.connection c = .event t p ∨ k.connection c = .sem t p → t ≠ td →
      c ∉ k.blocks td := by
    intro c t p hconn hne hc
    exact hne (h.owner hconn td hc).symm
  refine ⟨?_, ?_, ?_, ?_, hfit.nodup, ?_, ?_, hfit.account, ?_, ?_, ?_, ?_⟩
  · change ∀ i c, k'.cleanup i = some c → k'.created c = true ∧ c.cleanupSlot = i
    rw [hshrunk.cleanup, hshrunk.created]
    exact h.registered
  · change ∀ c, k'.created c = true → k'.cleanup c.cleanupSlot ≠ none
    rw [hshrunk.cleanup, hshrunk.created]
    exact h.slots
  · intro hc
    have hnil := h.timers (hshrunk.created ▸ hc)
    exact List.subset_nil.mp (hnil ▸ hshrunk.timers)
  · intro p hp
    change k'.created .events = true
    rw [hshrunk.created]
    exact h.events p ((hshrunk.eventValid p).symm.trans hp)
  · intro p hp c hc
    obtain ⟨t, ht, hblock⟩ := h.queued p ((hshrunk.eventValid p).symm.trans hp) c
      ((hshrunk.queues p).subset hc)
    have hne : t ≠ td := by
      rintro rfl
      exact hclean.events c p ht p hp hc
    refine ⟨t, ?_, ?_⟩
    · simpa [freeBlocks, hshrunk.blocks, hshrunk.connection, hother c t p (Or.inl ht) hne] using ht
    · simpa [freeBlocks, hshrunk.blocks, hne] using hblock
  · intro p hp
    change k'.created .semaphores = true
    rw [hshrunk.created]
    exact h.sems p ((hshrunk.sems p).valid hp)
  · intro p hp w hw
    obtain ⟨v, hv, hvw⟩ := (hshrunk.sems p).waiting w hw
    obtain ⟨t, ht, hblock⟩ := h.waits p ((hshrunk.sems p).valid hp) v hv
    rw [hvw] at ht hblock
    have hne : t ≠ td := by
      rintro rfl
      exact hclean.sems w.connection p ht p hp w hw rfl
    refine ⟨t, ?_, ?_⟩
    · simpa [freeBlocks, hshrunk.blocks, hshrunk.connection,
        hother w.connection t p (Or.inr ht) hne] using ht
    · simpa [freeBlocks, hshrunk.blocks, hne] using hblock
  · intro c t p hc
    by_cases hb : c ∈ k'.blocks td
    · simp [freeBlocks, hb] at hc
    · exact hfit.tds c t p (by simpa [freeBlocks, hb] using hc)
  · intro t c hc
    by_cases ht : t = td
    · simp [freeBlocks, ht] at hc
    · have hc' : c ∈ k.blocks t := by simpa [freeBlocks, ht, hshrunk.blocks] using hc
      obtain ⟨p, hp⟩ := h.owned t c hc'
      have hb := hother c t p hp ht
      refine ⟨p, ?_⟩
      simpa [freeBlocks, hshrunk.blocks, hshrunk.connection, hb] using hp
  · intro c t p hc
    by_cases hb : c ∈ k'.blocks td
    · simp [freeBlocks, hb] at hc
    · have hc' : k.connection c = .event t p ∨ k.connection c = .sem t p := by
        simpa [freeBlocks, hb, hshrunk.connection] using hc
      have hblock := h.opened c t p hc'
      have hne : t ≠ td := by
        rintro rfl
        exact hb (hshrunk.blocks ▸ hblock)
      simpa [freeBlocks, hne, hshrunk.blocks] using hblock

theorem Held.step (h : k.Held) (hen : k.Enabled op) (hreg : k.Regular op) :
    (k.apply op).Held := by
  cases op with
  | create comp done => exact h.create comp done
  | timerStart elapsed e =>
    have hc : k.created .timer = true := hen
    have hno : k.created .timer ≠ false := by simp [hc]
    unfold Components.apply
    cases elapsed
    · exact { h with timers := fun hf => absurd hf hno }
    · exact { h with timers := fun hf => absurd hf hno }
  | timerRemove id =>
    refine { h with timers := fun hf => ?_ }
    have hnil := h.timers hf
    rw [List.append_eq_nil_iff] at hnil
    simp [Components.apply, hnil.1, hnil.2]
  | eventCreate p => exact h.event List.nodup_nil fun _ => ⟨hen.1, by simp⟩
  | eventDestroy p => exact h.event (h.nodup p) fun hf => absurd hf (by simp)
  | eventOpen t c p => exact h.open hen.2 (Or.inl rfl)
  | eventClose t c =>
    obtain ⟨p, hconn⟩ := hen
    refine h.close (h.owner (Or.inl hconn)) hreg fun q hq w hw hwc => ?_
    obtain ⟨u, hu, -⟩ := h.waits q hq w hw
    rw [hwc, hconn] at hu
    exact absurd hu (by simp)
  | eventWait c p =>
    obtain ⟨hvalid, hnew, hconn⟩ := hen
    refine h.event ?_ fun _ => ⟨h.events p hvalid, fun b hb => ?_⟩
    · exact (h.nodup p).append (List.nodup_singleton c) (by simpa using hnew)
    · rcases List.mem_append.mp hb with hb | hb
      · exact h.queued p hvalid b hb
      · rw [List.mem_singleton.mp hb]
        exact hconn
  | eventLeave c p =>
    refine h.event ((h.nodup p).erase c) fun hvalid => ⟨h.events p hvalid, fun b hb => ?_⟩
    exact h.queued p hvalid b (List.mem_of_mem_erase hb)
  | semCreate p strict priorityQueueing initialCount =>
    cases hs : SemStruct.create strict priorityQueueing initialCount (k.sem p).td with
    | none =>
      simp only [Components.apply, hs]
      exact h
    | some s =>
      simp only [Components.apply, hs]
      have hsound := SemStruct.create_sound hs
      obtain ⟨htd, hnil⟩ := SemStruct.create_frame hs
      exact h.sem ⟨0, hsound.toQueued⟩ htd fun _ => ⟨hen.1, by simp [hnil]⟩
  | semOpen t c p =>
    obtain ⟨hvalid, hfresh⟩ := hen
    have hnone : ∀ u, k.connection c ≠ .sem u p := by
      intro u hu
      exact hfresh.1 u (h.opened c u p (Or.inr hu))
    have htd := h.setTd (t := t) hnone
    refine htd.open (c := c) (t := t) (p := p) ⟨hfresh.1, hfresh.2.1, fun q hq w hw => ?_⟩
      (Or.inr ⟨rfl, by simp⟩)
    by_cases he : q = p
    · subst he
      exact hfresh.2.2 q (by simpa using hq) w (by simpa using hw)
    · exact hfresh.2.2 q (by simpa [he] using hq) w (by simpa [he] using hw)
  | semClose t c =>
    obtain ⟨p, hconn, -, hsems⟩ := hen
    refine h.close (h.owner (Or.inr hconn)) (fun q hq hc => ?_) hsems
    obtain ⟨u, hu, -⟩ := h.queued q hq c hc
    rw [hconn] at hu
    exact absurd hu (by simp)
  | semOp p op =>
    obtain ⟨lost, hqueued⟩ := h.account p
    obtain ⟨htd, hvalid, hwaiting⟩ := SemStruct.apply_frame hqueued op
    refine h.sem ⟨lost, (hqueued.step hen.1).1⟩ htd fun hv => ⟨h.sems p (hvalid hv), ?_⟩
    intro w hw
    rcases hwaiting w hw with ⟨v, hv', hvw⟩ | ⟨t, timed, prio, rfl⟩
    · exact hvw ▸ h.waits p (hvalid hv) v hv'
    · exact ⟨t, hen.2 t w.connection timed prio rfl⟩
  | destroy active td =>
    obtain ⟨k', hk', hshrunk, hfit, hclean⟩ := h.destroyed hreg
    simp only [Components.apply, hk']
    exact h.freed hshrunk hfit hclean

theorem Held.run (h : k.Held) (hops : k.RegularRun ops) : (k.run ops).Held := by
  induction ops generalizing k with
  | nil => exact h
  | cons op ops ih => exact ih (h.step hops.1 hops.2.1) hops.2.2

/-! ## The condition -/

theorem semBlock_cleanup (h : k.semBlock active td c = some k') : k'.cleanup = k.cleanup := by
  unfold semBlock at h
  cases hconn : k.connection c with
  | event t p =>
    rw [hconn] at h
    exact congrArg cleanup (Option.some.inj h).symm
  | other =>
    rw [hconn] at h
    exact congrArg cleanup (Option.some.inj h).symm
  | sem t p =>
    rw [hconn] at h
    simp only at h
    split_ifs at h
    · obtain ⟨s, -, rfl⟩ := Option.map_eq_some_iff.mp h
      rfl
    · obtain ⟨s, -, rfl⟩ := Option.map_eq_some_iff.mp h
      rfl
    · exact congrArg cleanup (Option.some.inj h).symm

theorem clean_cleanup (h : k.clean active td comp = some k') : k'.cleanup = k.cleanup := by
  cases comp with
  | semaphores =>
    have hblocks : semBlocks active td (k.blocks td) k = some k' := h
    generalize k.blocks td = l at hblocks
    clear h
    induction l generalizing k with
    | nil => exact congrArg cleanup (Option.some.inj hblocks).symm
    | cons c l ih =>
      obtain ⟨k₁, hk₁, hrest⟩ := Option.bind_eq_some_iff.mp hblocks
      exact (ih hrest).trans (semBlock_cleanup hk₁)
  | events =>
    obtain rfl := Option.some.inj h
    exact (eventBlocks_spec td (k.blocks td) k).1.cleanup
  | timer =>
    obtain rfl := Option.some.inj h
    exact (k.timerCleanup_spec td).1.cleanup
  | mutexes => exact congrArg cleanup (Option.some.inj h).symm
  | watchdog => exact congrArg cleanup (Option.some.inj h).symm
  | messages => exact congrArg cleanup (Option.some.inj h).symm
  | partitions => exact congrArg cleanup (Option.some.inj h).symm

/-- The loop calls what the slots hold. -/
theorem cleanupLoop_calls (h : cleanupLoop active td l k = some (k', calls)) :
    calls = l.filterMap k.cleanup := by
  induction l generalizing k calls with
  | nil =>
    obtain ⟨-, rfl⟩ := Prod.mk.inj (Option.some.inj h)
    rfl
  | cons i l ih =>
    cases hi : k.cleanup i with
    | none =>
      simp only [cleanupLoop, hi] at h
      simpa only [List.filterMap_cons, hi] using ih h
    | some comp =>
      simp only [cleanupLoop, hi] at h
      obtain ⟨k₁, hclean, hrest⟩ := Option.bind_eq_some_iff.mp h
      obtain ⟨r, hr, hpair⟩ := Option.map_eq_some_iff.mp hrest
      obtain ⟨rfl, rfl⟩ := Prod.mk.inj hpair
      rw [List.filterMap_cons, hi, ← clean_cleanup hclean]
      exact congrArg _ (ih hr)

/-- Without a token to post, another task's cleanup of a connection changes the queue only. -/
theorem semBlock_foreign (hne : active ≠ td)
    (htds : ∀ c t p, k.connection c = .sem t p → (k.sem p).td c = t)
    (h : k.semBlock active td c = some k') :
    k'.connection = k.connection ∧
      (∀ p, (k'.sem p).td = (k.sem p).td ∧ (k'.sem p).valid = (k.sem p).valid ∧
        (k'.sem p).strict = (k.sem p).strict ∧ (k'.sem p).tokens = (k.sem p).tokens) ∧
      ∀ p, k.connection c = .sem td p → (k.sem p).valid = true → (k.sem p).strict = true →
        c ∉ (k.sem p).tokens := by
  unfold semBlock at h
  cases hconn : k.connection c with
  | event t p =>
    rw [hconn] at h
    obtain rfl := Option.some.inj h
    exact ⟨rfl, fun _ => ⟨rfl, rfl, rfl, rfl⟩, fun q hq => absurd hq (by simp)⟩
  | other =>
    rw [hconn] at h
    obtain rfl := Option.some.inj h
    exact ⟨rfl, fun _ => ⟨rfl, rfl, rfl, rfl⟩, fun q hq => absurd hq (by simp)⟩
  | sem t p =>
    rw [hconn] at h
    simp only at h
    by_cases hblock : t = td ∧ (k.sem p).valid = true
    case neg =>
      rw [if_neg hblock] at h
      obtain rfl := Option.some.inj h
      refine ⟨rfl, fun _ => ⟨rfl, rfl, rfl, rfl⟩, fun q hq hvalid => ?_⟩
      obtain ⟨rfl, rfl⟩ := Connection.sem.inj hq
      exact absurd ⟨rfl, hvalid⟩ hblock
    rw [if_pos hblock] at h
    obtain ⟨rfl, -⟩ := hblock
    obtain ⟨s, hs, rfl⟩ := Option.map_eq_some_iff.mp h
    have hleft : s = (k.sem p).leave c ∧
        ((k.sem p).strict = true → (k.sem p).tokens.count c = 0) := by
      by_cases hstrict : ((k.sem p).leave c).strict = true
      · have hforeign : ((k.sem p).leave c).td c ≠ active := by
          change (k.sem p).td c ≠ active
          rw [htds c t p hconn]
          exact hne.symm
        rw [if_pos hstrict] at hs
        obtain ⟨hzero, hsame⟩ :=
          SemStruct.postAll_foreign (s := (k.sem p).leave c) hstrict hforeign hs
        exact ⟨hsame, fun _ => hzero⟩
      · rw [if_neg hstrict] at hs
        exact ⟨(Option.some.inj hs).symm, fun h => absurd h hstrict⟩
    obtain ⟨rfl, hnone⟩ := hleft
    refine ⟨rfl, fun q => ?_, fun q hq _ hstrict => ?_⟩
    · by_cases he : q = p
      · subst he
        simp [SemStruct.leave]
      · simp [he]
    · obtain ⟨-, rfl⟩ := Connection.sem.inj hq
      exact List.count_eq_zero.mp (hnone hstrict)

theorem semBlocks_foreign (hne : active ≠ td)
    (htds : ∀ c t p, k.connection c = .sem t p → (k.sem p).td c = t)
    (h : semBlocks active td l k = some k') :
    ∀ c ∈ l, ∀ p, k.connection c = .sem td p → (k.sem p).valid = true →
      (k.sem p).strict = true → c ∉ (k.sem p).tokens := by
  induction l generalizing k with
  | nil => simp
  | cons b l ih =>
    obtain ⟨k₁, hk₁, hrest⟩ := Option.bind_eq_some_iff.mp h
    obtain ⟨hconn, hsame, hnone⟩ := semBlock_foreign hne htds hk₁
    have htds' : ∀ c t p, k₁.connection c = .sem t p → (k₁.sem p).td c = t := by
      intro c t p hc
      rw [(hsame p).1]
      exact htds c t p (hconn ▸ hc)
    intro c hc p hcp hvalid hstrict
    rcases List.mem_cons.mp hc with rfl | hc
    · exact hnone p hcp hvalid hstrict
    · obtain ⟨-, hv, hst, htokens⟩ := hsame p
      rw [← htokens]
      exact ih htds' hrest c hc p (hconn ▸ hcp) (hv.trans hvalid) (hst.trans hstrict)

/-- The first cleanup function that is called is that of the semaphores. -/
theorem Held.semaphores_first (h : k.Held) (hsem : k.created .semaphores = true)
    {r : Components × List Component} (hr : k.destroy active td = some r) :
    ∃ k₁, k.semCleanup active td = some k₁ := by
  have hzero : k.cleanup 0 = none := by
    by_contra hne
    obtain ⟨comp, hcomp⟩ := Option.ne_none_iff_exists'.mp hne
    have hslot := (h.registered 0 comp hcomp).2
    revert hslot
    cases comp <;> decide
  have hone : k.cleanup 1 = some .semaphores := by
    obtain ⟨comp, hcomp⟩ := Option.ne_none_iff_exists'.mp (h.slots .semaphores hsem)
    have hslot := (h.registered _ comp hcomp).2
    have he : comp = .semaphores := by
      revert hslot
      cases comp <;> decide
    exact he ▸ hcomp
  unfold destroy at hr
  obtain ⟨q, hq, -⟩ := Option.map_eq_some_iff.mp hr
  have hrange : List.range maxKernelComponents = 0 :: 1 :: (List.range 14).map (· + 2) := by
    decide
  rw [hrange] at hq
  simp only [cleanupLoop, hzero, hone] at hq
  obtain ⟨k₁, hk₁, -⟩ := Option.bind_eq_some_iff.mp hq
  exact ⟨k₁, hk₁⟩

theorem Held.cleaned_iff (h : k.Held) (active td : ℕ) :
    k.CleansUp active td ↔ k.Cleanable active td := by
  constructor
  · rintro ⟨k', calls, hk', hcalls, -⟩
    refine ⟨fun hboth => ?_, ?_⟩
    · obtain ⟨r, hr, hpair⟩ := Option.map_eq_some_iff.mp hk'
      have hlist : r.2 = (List.range maxKernelComponents).filterMap k.cleanup :=
        cleanupLoop_calls hr
      obtain ⟨-, rfl⟩ := Prod.mk.inj hpair
      have hslot : ∀ comp, k.created comp = true → k.cleanup comp.cleanupSlot = some comp := by
        intro comp hcomp
        have hmem : comp ∈ r.2 := List.count_pos_iff.mp (by rw [hcalls comp hcomp]; omega)
        rw [hlist] at hmem
        obtain ⟨i, -, hi⟩ := List.mem_filterMap.mp hmem
        exact (h.registered i comp hi).2 ▸ hi
      have htwo := (hslot .events hboth.1).symm.trans (hslot .timer hboth.2)
      exact absurd htwo (by simp)
    · by_cases hne : active = td
      · exact Or.inl hne
      · refine Or.inr fun c hc p hconn hvalid => ?_
        obtain ⟨k₁, hk₁⟩ := h.semaphores_first (h.sems p hvalid) hk'
        exact semBlocks_foreign hne h.tds hk₁ c hc p hconn hvalid
  · intro hclean
    obtain ⟨k', hk', hshrunk, -, hgone⟩ := h.destroyed hclean
    refine ⟨_, _, hk', fun comp hcomp => ?_, hgone.timers, hgone.events, hgone.sems⟩
    exact List.count_eq_one_of_mem h.nodup_calls (h.mem_calls hclean.1 hcomp)

/-- The destruction of a task cleans up after it exactly when it meets the condition. -/
theorem cleansUp_iff (hops : (boot td₀).RegularRun ops) (active td : ℕ) :
    ((boot td₀).run ops).CleansUp active td ↔ ((boot td₀).run ops).Cleanable active td :=
  ((boot_held td₀).run hops).cleaned_iff active td

/-- Task 1 with a timer entry is destroyed where the event component is not there. -/
theorem cleansUp_timer :
    ((boot id).run [.create .timer true, .timerStart true ⟨7, 1⟩]).CleansUp 1 1 := by
  refine (cleansUp_iff ?_ 1 1).mpr ⟨?_, Or.inl rfl⟩
  · simp [RegularRun, Enabled, Regular, Components.apply, Components.create, boot]
  · simp [run, Components.apply, Components.create, boot]

/-- With both components the timer entry of a destroyed task is left when the event component is
created last, and its queued event connection when the timer component is. -/
theorem cleanup_overwritten :
    ¬ ((boot id).run [.create .timer true, .timerStart true ⟨7, 1⟩,
      .create .events true]).CleansUp 1 1 ∧
    ¬ ((boot id).run [.create .events true, .create .timer true, .eventCreate 5, .eventOpen 1 3 5,
      .eventWait 3 5]).CleansUp 2 1 := by
  constructor
  · rw [((boot_held id).run ?_).cleaned_iff]
    · simp [Cleanable, run, Components.apply, Components.create, boot]
    · simp [RegularRun, Enabled, Regular, Components.apply, Components.create, boot]
  · rw [((boot_held id).run ?_).cleaned_iff]
    · simp [Cleanable, run, Components.apply, Components.create, boot]
    · simp only [RegularRun, Enabled, Regular, Fresh, Components.apply, Components.create, boot]
      simp
      intro p
      by_cases hp : p = 5 <;> simp [hp]

end Components

end Mqx.Sync
