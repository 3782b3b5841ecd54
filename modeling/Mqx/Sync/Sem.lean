import Mathlib.Data.List.Sort
import Mathlib.Tactic

/-!
# Destruction of semaphores

Model of the waiting, posting and destroying of `sem.c` for one semaphore. A task that has to
wait goes to sleep inside `_sem_wait_internal` and takes itself out of the queue only when it
runs again; the semaphore's memory is given back by a destruction or, later, by a posting.
-/

namespace Mqx.Sync

/-- A call of `_sem_wait_internal` that has put its task to sleep. The task is `blocked` in the
state `SEM_BLOCKED`, and `available` says whether its `INFO` is `SEM_AVAILABLE`. -/
structure SemWait where
  connection : ℕ
  timed : Bool
  blocked : Bool
  available : Bool
deriving DecidableEq

/-- `SEM_STRUCT` with its connections. The `tokens` hold the connection of each successful wait
that has not been posted, so that the `POST_STATE` of a connection to a strict semaphore is the
number of its tokens. Of the callers that have cleared `VALID`, some are on the way to
`_mem_free` and the others have released the structure. -/
structure SemStruct where
  valid : Bool
  delayedDestroy : Bool
  strict : Bool
  priorityQueueing : Bool
  count : ℕ
  maxCount : ℕ
  waitingTasks : List SemWait
  tokens : List ℕ
  td : ℕ → ℕ
  releasing : ℕ
  released : ℕ

/-- `MQX_OK`, `MQX_EDEADLK` and the codes of the semaphore component. -/
inductive SemStatus where
  | ok
  | deadlock
  | invalidSemaphoreHandle
  | invalidSemaphore
  | invalidSemaphoreCount
  | cannotPost
  | semaphoreDeleted
  | waitTimeout
deriving DecidableEq

namespace SemStruct

/-- `_sem_create`; a strict semaphore needs a count. -/
def create (strict priorityQueueing : Bool) (initialCount : UInt32) (td : ℕ → ℕ) :
    Option SemStruct :=
  if strict = true ∧ initialCount = 0 then none
  else some
    { valid := true
      delayedDestroy := false
      strict := strict
      priorityQueueing := priorityQueueing
      count := initialCount.toNat
      maxCount := if strict then initialCount.toNat else 2 ^ 32 - 1
      waitingTasks := []
      tokens := []
      td := td
      releasing := 0
      released := 0 }

/-- The insertion into the queue of waiting tasks; `prio` are the priorities at that time. -/
def enqueue (s : SemStruct) (prio : ℕ → ℕ) (w : SemWait) : SemStruct :=
  { s with
    waitingTasks :=
      if s.priorityQueueing then
        s.waitingTasks.orderedInsert (fun v u => prio v.connection < prio u.connection) w
      else s.waitingTasks ++ [w] }

/-- The end of a successful wait. -/
def own (s : SemStruct) (c : ℕ) : SemStruct := { s with tokens := c :: s.tokens }

/-- `_sem_wait_internal` of the task `t`; without a status the task sleeps. -/
def wait (s : SemStruct) (t c : ℕ) (timed : Bool) (prio : ℕ → ℕ) :
    SemStruct × Option SemStatus :=
  if s.td c ≠ t then (s, some .invalidSemaphoreHandle)
  else if s.valid = false then (s, some .invalidSemaphore)
  else if s.count = 0 then
    if s.strict = true ∧ s.tokens.count c = s.maxCount then (s, some .deadlock)
    else (s.enqueue prio ⟨c, timed, true, false⟩, none)
  else (own { s with count := s.count - 1 } c, some .ok)

/-- The time of a wait is up: the kernel makes its task ready. -/
def timeout (s : SemStruct) (c : ℕ) : SemStruct :=
  { s with
    waitingTasks := s.waitingTasks.map fun w =>
      if w.connection = c then { w with blocked := false } else w }

/-- The rest of `_sem_wait_internal` when the task of the connection runs again. -/
def resume (s : SemStruct) (c : ℕ) : SemStruct × Option SemStatus :=
  match s.waitingTasks.find? fun w => w.connection == c with
  | none => (s, none)
  | some w =>
    let s' := { s with waitingTasks := s.waitingTasks.erase w }
    -- An invalid semaphore keeps the connection queued, but its queue is used no more.
    if s.valid = false then (s', some .semaphoreDeleted)
    else if w.available then (s'.own c, some .ok)
    else (s', some (if w.timed then .waitTimeout else .semaphoreDeleted))

/-- The first task that is still blocked gets the semaphore. -/
def wake : List SemWait → Option (List SemWait)
  | [] => none
  | w :: l =>
    if w.blocked then some ({ w with blocked := false, available := true } :: l)
    else (wake l).map (w :: ·)

/-- `_sem_post` after its checks. -/
def giveBack (s : SemStruct) : SemStruct :=
  match wake s.waitingTasks with
  | some l => { s with waitingTasks := l }
  | none =>
    let s := { s with count := (s.count + 1) % 2 ^ 32 }
    if s.delayedDestroy = true ∧
        (s.strict = true ∧ s.count = s.maxCount ∨ s.strict = false) then
      { s with valid := false, releasing := s.releasing + 1 }
    else s

/-- The poster's side of a posting. -/
def spend (s : SemStruct) (c : ℕ) : SemStruct := { s with tokens := s.tokens.erase c }

/-- `_sem_post` of the task `t`. -/
def post (s : SemStruct) (t c : ℕ) : SemStruct × SemStatus :=
  if s.strict = true ∧ s.td c ≠ t then (s, .invalidSemaphoreHandle)
  else if s.strict = true ∧ s.tokens.count c = 0 then (s, .cannotPost)
  else if s.valid = false then (s, .invalidSemaphore)
  else if s.strict = true ∧ s.count > s.maxCount then (s, .invalidSemaphoreCount)
  else ((s.spend c).giveBack, .ok)

/-- The loop of a forced destruction: it looks at the head of the queue every time. -/
def readyHead : ℕ → List SemWait → List SemWait
  | 0, l => l
  | _ + 1, [] => []
  | n + 1, w :: l => readyHead n ({ w with blocked := false } :: l)

/-- `_sem_destroy` and `_sem_destroy_fast` of a semaphore that is found. -/
def destroy (s : SemStruct) (force : Bool) : SemStruct × SemStatus :=
  if s.valid = false then (s, .invalidSemaphore)
  else
    let s := if force then
        { s with waitingTasks := readyHead s.waitingTasks.length s.waitingTasks } else s
    if s.strict = true ∧ s.count = s.maxCount ∧ s.waitingTasks.length = 0 ∨
        s.strict = false ∧ s.waitingTasks.length = 0 then
      ({ s with valid := false, releasing := s.releasing + 1 }, .ok)
    else ({ s with delayedDestroy := true }, .ok)

/-- The end of a posting or a destruction that has cleared `VALID`. -/
def free (s : SemStruct) : SemStruct :=
  { s with releasing := s.releasing - 1, released := s.released + 1 }

end SemStruct

/-- What tasks, interrupts and the clock do to the semaphore. -/
inductive SemOp where
  | wait (t c : ℕ) (timed : Bool) (prio : ℕ → ℕ)
  | timeout (c : ℕ)
  | resume (c : ℕ)
  | post (t c : ℕ)
  | destroy (force : Bool)
  | free

namespace SemStruct

def apply (s : SemStruct) : SemOp → SemStruct
  | .wait t c timed prio => (s.wait t c timed prio).1
  | .timeout c => s.timeout c
  | .resume c => (s.resume c).1
  | .post t c => (s.post t c).1
  | .destroy force => (s.destroy force).1
  | .free => s.free

def run (s : SemStruct) (ops : List SemOp) : SemStruct := ops.foldl apply s

/-- When a step is possible: a task that sleeps in a wait makes no other one, only the time of a
timed wait runs out, and a task runs again once it is ready. -/
def Enabled (s : SemStruct) : SemOp → Prop
  | .wait t _ _ _ => ∀ w ∈ s.waitingTasks, s.td w.connection ≠ t
  | .timeout c => ∃ w ∈ s.waitingTasks, w.connection = c ∧ w.timed = true ∧ w.blocked = true
  | .resume c => ∃ w ∈ s.waitingTasks, w.connection = c ∧ w.blocked = false
  | .post _ _ => True
  | .destroy _ => True
  | .free => 0 < s.releasing

/-- A forced destruction finds no blocked task besides the first of the queue, which waits
without a time limit. Once the destruction is delayed, a posting that gets the semaphore back
finds no task in the queue, and a task that leaves without the semaphore leaves another waiting
task or a token behind. -/
def Regular (s : SemStruct) : SemOp → Prop
  | .destroy force => force = true → s.valid = true → ∀ w ∈ s.waitingTasks, w.blocked = true →
      s.waitingTasks.head? = some w ∧ w.timed = false
  | .post t c => s.valid = true → s.delayedDestroy = true →
      (∀ w ∈ s.waitingTasks, w.blocked = false) →
      (s.strict = true → s.td c = t ∧ c ∈ s.tokens ∧ s.count + 1 = s.maxCount) →
      s.waitingTasks = []
  | .resume c => s.delayedDestroy = true → ∀ w ∈ s.waitingTasks, w.connection = c →
      w.available = false → s.waitingTasks.length ≠ 1 ∨ s.tokens ≠ []
  | _ => True

/-- A run all of whose steps meet the condition. -/
def RegularRun : SemStruct → List SemOp → Prop
  | _, [] => True
  | s, op :: ops => s.Enabled op ∧ s.Regular op ∧ RegularRun (s.apply op) ops

/-- The structure is released at most once, when no task waits and the tokens are back, and it
has been once the destruction is delayed and no task waits or holds a token. -/
structure ReleasedOnce (s : SemStruct) : Prop where
  once : s.releasing + s.released ≤ 1
  unused : s.releasing + s.released ≠ 0 →
    s.waitingTasks = [] ∧ (s.strict = true → s.tokens = [] ∧ s.count = s.maxCount)
  done : s.delayedDestroy = true → s.waitingTasks = [] → s.tokens = [] →
    s.releasing + s.released = 1

/-- The queue of a semaphore and the account of its units: each is in the count, out as a token,
with a ready task, or lost. -/
structure Queued (s : SemStruct) (lost : ℕ) : Prop where
  nodup : (s.waitingTasks.map SemWait.connection).Nodup
  ready : ∀ w ∈ s.waitingTasks, w.available = true → w.blocked = false
  counted : s.valid = true → s.strict = true → s.maxCount < 2 ^ 32 ∧
    s.count + s.tokens.length + s.waitingTasks.countP (·.available) + lost = s.maxCount

/-- What is kept between the steps of a regular run. -/
structure Sound (s : SemStruct) : Prop extends s.Queued 0 where
  intact : s.valid = true → s.releasing + s.released = 0
  gone : s.valid = false → s.releasing + s.released = 1 ∧ s.waitingTasks = [] ∧
    (s.strict = true → s.tokens = [] ∧ s.count = s.maxCount)
  pending : s.valid = true → s.delayedDestroy = true → s.waitingTasks ≠ [] ∨ s.tokens ≠ []

variable {s s' : SemStruct} {l l' : List SemWait} {w : SemWait} {t c : ℕ} {timed force : Bool}
  {prio : ℕ → ℕ} {lost : ℕ} {op : SemOp} {ops : List SemOp}

/-! ## The queue -/

theorem wake_none (h : wake l = none) : ∀ w ∈ l, w.blocked = false := by
  induction l with
  | nil => simp
  | cons v l ih =>
    by_cases hv : v.blocked = true
    · simp [wake, hv] at h
    · simp only [wake, hv, if_false, Option.map_eq_none_iff, Bool.false_eq_true] at h
      intro w hw
      rcases List.mem_cons.mp hw with rfl | hw
      · simpa using hv
      · exact ih h w hw

/-- What a posting does to the queue when it finds a blocked task. -/
theorem wake_some (h : wake l = some l')
    (hready : ∀ w ∈ l, w.available = true → w.blocked = false) :
    l'.map SemWait.connection = l.map SemWait.connection ∧
      (∀ w ∈ l', w.available = true → w.blocked = false) ∧
      l'.countP (·.available) = l.countP (·.available) + 1 ∧
      ∀ w ∈ l, w.blocked = false → w ∈ l' := by
  induction l generalizing l' with
  | nil => simp [wake] at h
  | cons v l ih =>
    by_cases hv : v.blocked = true
    · simp only [wake, hv, if_true, Option.some.injEq] at h
      subst h
      have hnot : v.available = false := by
        have := hready v (by simp)
        simp_all
      refine ⟨rfl, ?_, ?_, ?_⟩
      · intro w hw
        rcases List.mem_cons.mp hw with rfl | hw
        · simp
        · exact hready w (List.mem_cons_of_mem _ hw)
      · simp [hnot]
      · intro w hw hblocked
        rcases List.mem_cons.mp hw with rfl | hw
        · simp [hv] at hblocked
        · exact List.mem_cons_of_mem _ hw
    · simp only [wake, hv, if_false, Bool.false_eq_true] at h
      obtain ⟨l'', hl, rfl⟩ := Option.map_eq_some_iff.mp h
      obtain ⟨hmap, hready', hcount, hkept⟩ :=
        ih hl fun w hw => hready w (List.mem_cons_of_mem _ hw)
      refine ⟨by simp [hmap], ?_, ?_, ?_⟩
      · intro w hw
        rcases List.mem_cons.mp hw with rfl | hw
        · simpa using fun _ => hv
        · exact hready' w hw
      · simp only [List.countP_cons, hcount]
        omega
      · intro w hw hblocked
        rcases List.mem_cons.mp hw with rfl | hw
        · simp
        · exact List.mem_cons_of_mem _ (hkept w hw hblocked)

/-- The forced destruction readies the head and nothing else. -/
theorem readyHead_cons (n : ℕ) (w : SemWait) (l : List SemWait) :
    readyHead (n + 1) (w :: l) = { w with blocked := false } :: l := by
  induction n generalizing w with
  | zero => rfl
  | succ n ih => rw [readyHead, ih]

/-- Some tasks of the queue get ready, without the semaphore. -/
def Readied (l l' : List SemWait) : Prop :=
  List.Forall₂ (fun w w' => w' = w ∨ w' = { w with blocked := false }) l l'

theorem Readied.spec (h : Readied l l')
    (hready : ∀ w ∈ l, w.available = true → w.blocked = false) :
    l'.map SemWait.connection = l.map SemWait.connection ∧
      (∀ w ∈ l', w.available = true → w.blocked = false) ∧
      l'.countP (·.available) = l.countP (·.available) ∧
      ∀ w ∈ l, w.blocked = false → w ∈ l' := by
  induction h with
  | nil => simp
  | @cons v v' l l' hv _ ih =>
    obtain ⟨hmap, hready', hcount, hkept⟩ := ih fun w hw => hready w (List.mem_cons_of_mem _ hw)
    have hhead : v.available = true → v.blocked = false := hready v (by simp)
    refine ⟨?_, ?_, ?_, ?_⟩
    · rcases hv with rfl | rfl <;> simp [hmap]
    · intro w hw
      rcases List.mem_cons.mp hw with rfl | hw
      · rcases hv with rfl | rfl
        · exact hhead
        · simp
      · exact hready' w hw
    · rcases hv with rfl | rfl <;> simp [List.countP_cons, hcount]
    · intro w hw hblocked
      rcases List.mem_cons.mp hw with rfl | hw
      · rcases hv with rfl | rfl
        · simp
        · cases w
          simp_all
      · exact List.mem_cons_of_mem _ (hkept w hw hblocked)

theorem readied_refl (l : List SemWait) : Readied l l := by
  induction l with
  | nil => exact List.Forall₂.nil
  | cons w l ih => exact List.Forall₂.cons (Or.inl rfl) ih

theorem readied_readyHead (l : List SemWait) : Readied l (readyHead l.length l) := by
  cases l with
  | nil => exact List.Forall₂.nil
  | cons w l =>
    rw [List.length_cons, readyHead_cons]
    exact List.Forall₂.cons (Or.inr rfl) (readied_refl l)

theorem readied_timeout (s : SemStruct) (c : ℕ) :
    Readied s.waitingTasks (s.timeout c).waitingTasks := by
  unfold timeout
  induction s.waitingTasks with
  | nil => exact List.Forall₂.nil
  | cons w l ih =>
    refine List.Forall₂.cons ?_ ih
    by_cases hw : w.connection = c
    · simp [hw]
    · simp [hw]

theorem enqueue_perm (s : SemStruct) (prio : ℕ → ℕ) (w : SemWait) :
    List.Perm (s.enqueue prio w).waitingTasks (w :: s.waitingTasks) := by
  unfold enqueue
  by_cases hq : s.priorityQueueing = true
  · simpa [hq] using List.perm_orderedInsert _ w s.waitingTasks
  · simp [hq, List.perm_append_singleton]

/-- The call that a connection is in. -/
theorem find_connection (h : (l.map SemWait.connection).Nodup) (hw : w ∈ l) :
    (l.find? fun v => v.connection == w.connection) = some w := by
  induction l with
  | nil => simp at hw
  | cons v l ih =>
    simp only [List.map_cons, List.nodup_cons] at h
    rcases List.mem_cons.mp hw with rfl | hw
    · simp
    · have hne : v.connection ≠ w.connection := by
        rintro he
        exact h.1 (he ▸ List.mem_map_of_mem hw)
      rw [List.find?_cons_of_neg (by simpa using hne)]
      exact ih h.2 hw

/-! ## The steps -/

theorem Queued.wait (h : s.Queued lost) (hen : s.Enabled (.wait t c timed prio)) :
    (s.wait t c timed prio).1.Queued lost := by
  unfold SemStruct.wait
  by_cases htd : s.td c = t
  case neg => rwa [if_pos htd]
  by_cases hinvalid : s.valid = false
  · rwa [if_neg (not_not.mpr htd), if_pos hinvalid]
  rw [if_neg (not_not.mpr htd), if_neg hinvalid]
  by_cases hzero : s.count = 0
  · rw [if_pos hzero]
    by_cases hdead : s.strict = true ∧ s.tokens.count c = s.maxCount
    · rwa [if_pos hdead]
    · rw [if_neg hdead]
      have hperm := s.enqueue_perm prio ⟨c, timed, true, false⟩
      have hnew : c ∉ s.waitingTasks.map SemWait.connection := by
        intro hc
        obtain ⟨w, hw, rfl⟩ := List.mem_map.mp hc
        exact hen w hw htd
      constructor
      · rw [(hperm.map _).nodup_iff]
        exact List.nodup_cons.mpr ⟨hnew, h.nodup⟩
      · intro w hw hav
        rcases List.mem_cons.mp (hperm.mem_iff.mp hw) with rfl | hw
        · simp at hav
        · exact h.ready w hw hav
      · intro hvalid hstrict
        rw [hperm.countP_eq]
        simpa [enqueue] using h.counted hvalid hstrict
  · rw [if_neg hzero]
    refine ⟨h.nodup, h.ready, ?_⟩
    intro hvalid hstrict
    obtain ⟨hmax, hcount⟩ := h.counted hvalid hstrict
    refine ⟨hmax, ?_⟩
    simp only [own, List.length_cons]
    omega

/-- A wait leaves the queued tasks where they are. -/
theorem wait_kept (s : SemStruct) (t c : ℕ) (timed : Bool) (prio : ℕ → ℕ) :
    (s.wait t c timed prio).1.valid = s.valid ∧
      (s.wait t c timed prio).1.delayedDestroy = s.delayedDestroy ∧
      (s.wait t c timed prio).1.releasing = s.releasing ∧
      (s.wait t c timed prio).1.released = s.released ∧
      (s.valid = false → (s.wait t c timed prio).1 = s) ∧
      (∀ w ∈ s.waitingTasks, w ∈ (s.wait t c timed prio).1.waitingTasks) ∧
      ∀ c' ∈ s.tokens, c' ∈ (s.wait t c timed prio).1.tokens := by
  unfold SemStruct.wait
  split_ifs with htd hinvalid hzero hdead
  · simp
  · simp
  · simp
  · refine ⟨rfl, rfl, rfl, rfl, fun h => absurd h hinvalid, fun w hw => ?_, fun c' hc' => hc'⟩
    exact (s.enqueue_perm prio _).mem_iff.mpr (List.mem_cons_of_mem _ hw)
  · refine ⟨rfl, rfl, rfl, rfl, fun h => absurd h hinvalid, fun w hw => hw, fun c' hc' => ?_⟩
    exact List.mem_cons_of_mem _ hc'

theorem Sound.wait (h : s.Sound) (hen : s.Enabled (.wait t c timed prio)) :
    (s.wait t c timed prio).1.Sound := by
  obtain ⟨hvalid, hdelayed, hreleasing, hreleased, hsame, hwaiting, htokens⟩ :=
    s.wait_kept t c timed prio
  refine ⟨h.toQueued.wait hen, ?_, ?_, ?_⟩
  · rw [hvalid, hreleasing, hreleased]
    exact h.intact
  · intro hinvalid
    rw [hvalid] at hinvalid
    rw [hsame hinvalid]
    exact h.gone hinvalid
  · rw [hvalid, hdelayed]
    intro hv hd
    rcases h.pending hv hd with hne | hne
    · obtain ⟨w, hw⟩ := List.exists_mem_of_ne_nil _ hne
      exact Or.inl (List.ne_nil_of_mem (hwaiting w hw))
    · obtain ⟨c', hc'⟩ := List.exists_mem_of_ne_nil _ hne
      exact Or.inr (List.ne_nil_of_mem (htokens c' hc'))

theorem Queued.timeout (h : s.Queued lost) :
    (s.timeout c).Queued lost ∧
      ∀ w ∈ s.waitingTasks, w.blocked = false → w ∈ (s.timeout c).waitingTasks := by
  obtain ⟨hmap, hready, hcount, hkept⟩ := (readied_timeout s c).spec h.ready
  refine ⟨⟨hmap ▸ h.nodup, hready, ?_⟩, hkept⟩
  rw [hcount]
  exact h.counted

theorem Sound.timeout (h : s.Sound) : (s.timeout c).Sound := by
  refine ⟨h.toQueued.timeout.1, h.intact, ?_, ?_⟩
  · intro hinvalid
    obtain ⟨hone, hnil, hfull⟩ := h.gone hinvalid
    exact ⟨hone, by simp [SemStruct.timeout, hnil], hfull⟩
  · intro hvalid hdelayed
    rcases h.pending hvalid hdelayed with hne | hne
    · left
      simpa [SemStruct.timeout] using hne
    · exact Or.inr hne

/-- The task of a queued connection leaves the queue when it runs again. -/
theorem resume_eq (h : s.Queued lost) {w : SemWait} (hw : w ∈ s.waitingTasks) :
    s.resume w.connection =
      (let s' := { s with waitingTasks := s.waitingTasks.erase w }
      if s.valid = false then (s', some .semaphoreDeleted)
      else if w.available then (s'.own w.connection, some .ok)
      else (s', some (if w.timed then .waitTimeout else .semaphoreDeleted))) := by
  unfold SemStruct.resume
  rw [find_connection h.nodup hw]

theorem Queued.erase (h : s.Queued lost) (hw : w ∈ s.waitingTasks) :
    ((s.waitingTasks.erase w).map SemWait.connection).Nodup ∧
      (∀ v ∈ s.waitingTasks.erase w, v.available = true → v.blocked = false) ∧
      s.waitingTasks.countP (·.available) =
        (s.waitingTasks.erase w).countP (·.available) + (if w.available then 1 else 0) ∧
      ∀ v ∈ s.waitingTasks, v.connection ≠ w.connection → v ∈ s.waitingTasks.erase w := by
  refine ⟨h.nodup.sublist (List.erase_sublist.map _),
    fun v hv => h.ready v (List.mem_of_mem_erase hv), ?_, ?_⟩
  · rw [(List.perm_cons_erase hw).countP_eq, List.countP_cons]
  · intro v hv hne
    have hvw : v ≠ w := by
      rintro rfl
      exact hne rfl
    exact (List.mem_erase_of_ne hvw).mpr hv

theorem Queued.resume (h : s.Queued lost) (hen : s.Enabled (.resume c)) :
    (s.resume c).1.Queued lost ∧
      ∀ w ∈ s.waitingTasks, w.connection ≠ c → w ∈ (s.resume c).1.waitingTasks := by
  obtain ⟨w, hw, rfl, -⟩ := hen
  obtain ⟨hnodup, hready, hcount, hkept⟩ := h.erase hw
  rw [resume_eq h hw]
  by_cases hinvalid : s.valid = false
  · rw [if_pos hinvalid]
    refine ⟨⟨hnodup, hready, fun hvalid => ?_⟩, hkept⟩
    exact absurd (hinvalid.symm.trans hvalid) (by simp)
  rw [if_neg hinvalid]
  by_cases hav : w.available = true
  · rw [if_pos hav] at hcount ⊢
    refine ⟨⟨hnodup, hready, ?_⟩, hkept⟩
    intro hvalid hstrict
    obtain ⟨hmax, htotal⟩ := h.counted hvalid hstrict
    refine ⟨hmax, ?_⟩
    simp only [own, List.length_cons]
    omega
  · rw [if_neg hav] at hcount ⊢
    refine ⟨⟨hnodup, hready, ?_⟩, hkept⟩
    intro hvalid hstrict
    obtain ⟨hmax, htotal⟩ := h.counted hvalid hstrict
    exact ⟨hmax, by simp only; omega⟩

theorem Sound.resume (h : s.Sound) (hen : s.Enabled (.resume c)) (hreg : s.Regular (.resume c)) :
    (s.resume c).1.Sound := by
  have hqueued := (h.toQueued.resume hen).1
  obtain ⟨w, hw, rfl, -⟩ := hen
  have hvalid : s.valid = true := by
    by_contra hinvalid
    simp [(h.gone (by simpa using hinvalid)).2.1] at hw
  have hnot : ¬ s.valid = false := by simp [hvalid]
  rw [resume_eq h.toQueued hw, if_neg hnot] at hqueued ⊢
  by_cases hav : w.available = true
  · rw [if_pos hav] at hqueued ⊢
    refine ⟨hqueued, h.intact, fun hinvalid => absurd hinvalid hnot, fun _ _ => ?_⟩
    simp [own]
  · rw [if_neg hav] at hqueued ⊢
    refine ⟨hqueued, h.intact, fun hinvalid => absurd hinvalid hnot, fun _ hdelayed => ?_⟩
    rcases hreg hdelayed w hw rfl (by simpa using hav) with hlen | htokens
    · left
      intro hnil
      have hlength := (List.perm_cons_erase hw).length_eq
      have hnil' : s.waitingTasks.erase w = [] := hnil
      rw [hnil'] at hlength
      exact hlen hlength
    · exact Or.inr htokens

/-- A posting that passes the checks gives the token of its connection back. -/
theorem Queued.returned (h : s.Queued lost) (hvalid : s.valid = true) (hstrict : s.strict = true)
    (hc : c ∈ s.tokens) :
    s.maxCount < 2 ^ 32 ∧ s.count + 1 + (s.tokens.erase c).length +
      s.waitingTasks.countP (·.available) + lost = s.maxCount := by
  obtain ⟨hlt, hcount⟩ := h.counted hvalid hstrict
  have hpos := List.length_pos_of_mem hc
  have hlen := List.length_erase_of_mem hc
  exact ⟨hlt, by omega⟩

/-- The destruction ends with a posting that finds it delayed and gets the last unit back. -/
def Ends (s : SemStruct) : Prop :=
  s.delayedDestroy = true ∧
    (s.strict = true ∧ (s.count + 1) % 2 ^ 32 = s.maxCount ∨ s.strict = false)

theorem giveBack_some (h : wake s.waitingTasks = some l) :
    s.giveBack = { s with waitingTasks := l } := by
  unfold giveBack
  rw [h]

theorem giveBack_ends (h : wake s.waitingTasks = none) (hend : s.Ends) :
    s.giveBack = { s with
      count := (s.count + 1) % 2 ^ 32, valid := false, releasing := s.releasing + 1 } := by
  unfold giveBack
  rw [h]
  exact if_pos hend

theorem giveBack_stays (h : wake s.waitingTasks = none) (hend : ¬ s.Ends) :
    s.giveBack = { s with count := (s.count + 1) % 2 ^ 32 } := by
  unfold giveBack
  rw [h]
  exact if_neg hend

/-- A posting is refused, or passes all its checks. -/
theorem post_cases (s : SemStruct) (t c : ℕ) :
    (s.post t c).1 = s ∧ (s.post t c).2 ≠ .ok ∨
      s.post t c = ((s.spend c).giveBack, .ok) ∧ s.valid = true ∧
        (s.strict = true → s.td c = t ∧ c ∈ s.tokens) := by
  unfold SemStruct.post
  split_ifs with htd htoken hinvalid hmax
  · exact Or.inl ⟨rfl, by simp⟩
  · exact Or.inl ⟨rfl, by simp⟩
  · exact Or.inl ⟨rfl, by simp⟩
  · exact Or.inl ⟨rfl, by simp⟩
  · refine Or.inr ⟨rfl, by simpa using hinvalid, fun hstrict => ⟨?_, ?_⟩⟩
    · by_contra hne
      exact htd ⟨hstrict, hne⟩
    · by_contra hc
      exact htoken ⟨hstrict, List.count_eq_zero_of_not_mem hc⟩

theorem Queued.post (h : s.Queued lost) :
    (s.post t c).1.Queued lost ∧
      ∀ w ∈ s.waitingTasks, w.blocked = false → w ∈ (s.post t c).1.waitingTasks := by
  rcases s.post_cases t c with ⟨hsame, -⟩ | ⟨hpost, hvalid, htoken⟩
  · rw [hsame]
    exact ⟨h, fun w hw _ => hw⟩
  rw [hpost]
  cases hwake : wake s.waitingTasks with
  | some l =>
    obtain ⟨hmap, hready, hcount, hkept⟩ := wake_some hwake h.ready
    rw [giveBack_some (s := s.spend c) hwake]
    refine ⟨⟨hmap ▸ h.nodup, hready, fun _ hstrict => ?_⟩, hkept⟩
    obtain ⟨hlt, htotal⟩ := h.returned hvalid hstrict (htoken hstrict).2
    exact ⟨hlt, by simp only [spend, hcount]; omega⟩
  | none =>
    by_cases hend : (s.spend c).Ends
    · rw [giveBack_ends (s := s.spend c) hwake hend]
      exact ⟨⟨h.nodup, h.ready, by simp⟩, fun w hw _ => hw⟩
    · rw [giveBack_stays (s := s.spend c) hwake hend]
      refine ⟨⟨h.nodup, h.ready, fun _ hstrict => ?_⟩, fun w hw _ => hw⟩
      obtain ⟨hlt, htotal⟩ := h.returned hvalid hstrict (htoken hstrict).2
      refine ⟨hlt, ?_⟩
      simp only [spend]
      rw [Nat.mod_eq_of_lt (by omega)]
      omega

/-- A posting gives a token back: to a blocked task, or to the semaphore, whose destruction it may
end. -/
theorem Sound.post (h : s.Sound) (hreg : s.Regular (.post t c)) : (s.post t c).1.Sound := by
  have hqueued := (h.toQueued.post (t := t) (c := c)).1
  rcases s.post_cases t c with ⟨hsame, -⟩ | ⟨hpost, hvalid, htoken⟩
  · rw [hsame]
    exact h
  rw [hpost] at hqueued ⊢
  have hzero := h.intact hvalid
  have hnot : ¬ s.valid = false := by simp [hvalid]
  cases hwake : wake s.waitingTasks with
  | some l =>
    rw [giveBack_some (s := s.spend c) hwake] at hqueued ⊢
    refine ⟨hqueued, h.intact, fun hinvalid => absurd hinvalid hnot, fun _ _ => Or.inl ?_⟩
    rintro rfl
    have hcount := (wake_some hwake h.ready).2.2.1
    simp at hcount
  | none =>
    have hidle := wake_none hwake
    by_cases hend : (s.spend c).Ends
    · rw [giveBack_ends (s := s.spend c) hwake hend] at hqueued ⊢
      have hfull : s.strict = true → s.count + 1 = s.maxCount ∧ s.tokens.erase c = [] := by
        intro hstrict
        obtain ⟨hlt, htotal⟩ := h.returned hvalid hstrict (htoken hstrict).2
        have hmod : (s.count + 1) % 2 ^ 32 = s.maxCount := by simpa [spend, hstrict] using hend.2
        rw [Nat.mod_eq_of_lt (by omega)] at hmod
        exact ⟨hmod, List.eq_nil_of_length_eq_zero (by omega)⟩
      have hnil : s.waitingTasks = [] :=
        hreg hvalid hend.1 hidle fun hstrict =>
          ⟨(htoken hstrict).1, (htoken hstrict).2, (hfull hstrict).1⟩
      refine ⟨hqueued, by simp, fun _ => ⟨?_, hnil, fun hstrict => ?_⟩, by simp⟩
      · simp only [spend]
        omega
      obtain ⟨hlt, htotal⟩ := h.returned hvalid hstrict (htoken hstrict).2
      refine ⟨(hfull hstrict).2, ?_⟩
      simp only [spend]
      rw [Nat.mod_eq_of_lt (by omega)]
      exact (hfull hstrict).1
    · rw [giveBack_stays (s := s.spend c) hwake hend] at hqueued ⊢
      refine ⟨hqueued, h.intact, fun hinvalid => absurd hinvalid hnot, fun _ hdelayed => ?_⟩
      have hstrict : s.strict = true := by
        by_contra hne
        exact hend ⟨hdelayed, Or.inr (by simpa [spend] using hne)⟩
      obtain ⟨hlt, htotal⟩ := h.returned hvalid hstrict (htoken hstrict).2
      by_contra hnone
      obtain ⟨hw, ht⟩ : s.waitingTasks = [] ∧ s.tokens.erase c = [] := by
        simpa only [spend, ne_eq, not_or, not_not] using hnone
      rw [hw, ht] at htotal
      simp only [List.length_nil, List.countP_nil] at htotal
      refine hend ⟨hdelayed, Or.inl ⟨hstrict, ?_⟩⟩
      simp only [spend]
      rw [Nat.mod_eq_of_lt (by omega)]
      omega

/-- The queue that a destruction leaves. -/
def afterForce (s : SemStruct) (force : Bool) : List SemWait :=
  if force then readyHead s.waitingTasks.length s.waitingTasks else s.waitingTasks

theorem destroy_eq (s : SemStruct) (force : Bool) (hvalid : s.valid = true) :
    (s.destroy force).1 =
      if s.strict = true ∧ s.count = s.maxCount ∧ (s.afterForce force).length = 0 ∨
          s.strict = false ∧ (s.afterForce force).length = 0 then
        { s with waitingTasks := s.afterForce force, valid := false, releasing := s.releasing + 1 }
      else { s with waitingTasks := s.afterForce force, delayedDestroy := true } := by
  unfold SemStruct.destroy afterForce
  rw [if_neg (by simp [hvalid])]
  cases force <;> simp only [if_true, if_false, Bool.false_eq_true] <;> split_ifs <;> rfl

theorem destroy_waitingTasks (hvalid : s.valid = true) :
    (s.destroy force).1.waitingTasks = s.afterForce force := by
  rw [destroy_eq s force hvalid]
  split_ifs <;> rfl

theorem readied_afterForce (s : SemStruct) (force : Bool) :
    Readied s.waitingTasks (s.afterForce force) := by
  unfold afterForce
  cases force with
  | false => exact readied_refl _
  | true => exact readied_readyHead _

theorem Queued.destroy (h : s.Queued lost) (force : Bool) :
    (s.destroy force).1.Queued lost ∧
      ∀ w ∈ s.waitingTasks, w.blocked = false → w ∈ (s.destroy force).1.waitingTasks := by
  by_cases hinvalid : s.valid = false
  · unfold SemStruct.destroy
    rw [if_pos hinvalid]
    exact ⟨h, fun w hw _ => hw⟩
  have hvalid : s.valid = true := by simpa using hinvalid
  obtain ⟨hmap, hready, hcount, hkept⟩ := (readied_afterForce s force).spec h.ready
  refine ⟨?_, by rwa [destroy_waitingTasks hvalid]⟩
  rw [destroy_eq s force hvalid]
  split_ifs with hend
  · exact ⟨hmap ▸ h.nodup, hready, by simp⟩
  · refine ⟨hmap ▸ h.nodup, hready, ?_⟩
    rw [hcount]
    exact h.counted

/-- A destruction releases the structure, or leaves a waiting task or a token to wait for. -/
theorem Sound.destroy (h : s.Sound) (force : Bool) : (s.destroy force).1.Sound := by
  by_cases hinvalid : s.valid = false
  · unfold SemStruct.destroy
    rwa [if_pos hinvalid]
  have hqueued := (h.toQueued.destroy force).1
  have hvalid : s.valid = true := by simpa using hinvalid
  have hcount := ((readied_afterForce s force).spec h.ready).2.2.1
  have hzero := h.intact hvalid
  rw [destroy_eq s force hvalid] at hqueued ⊢
  by_cases hend : s.strict = true ∧ s.count = s.maxCount ∧ (s.afterForce force).length = 0 ∨
      s.strict = false ∧ (s.afterForce force).length = 0
  · rw [if_pos hend] at hqueued ⊢
    refine ⟨hqueued, by simp, fun _ => ⟨by simp only; omega, ?_, fun hstrict => ?_⟩, by simp⟩
    · exact List.eq_nil_of_length_eq_zero (hend.elim (fun h => h.2.2) fun h => h.2)
    · obtain ⟨-, htotal⟩ := h.counted hvalid hstrict
      have hfull : s.count = s.maxCount := by
        rcases hend with hend | hend
        · exact hend.2.1
        · exact absurd (hstrict.symm.trans hend.1) (by simp)
      have hnil : s.tokens = [] := List.eq_nil_of_length_eq_zero (by omega)
      exact ⟨hnil, hfull⟩
  · rw [if_neg hend] at hqueued ⊢
    refine ⟨hqueued, h.intact, fun hno => absurd hno hinvalid, fun _ _ => ?_⟩
    by_contra hnone
    obtain ⟨hw, ht⟩ : s.afterForce force = [] ∧ s.tokens = [] := by
      simpa only [ne_eq, not_or, not_not] using hnone
    rw [hw] at hend hcount
    cases hstrict : s.strict with
    | false => exact hend (Or.inr ⟨hstrict, rfl⟩)
    | true =>
      have htotal := (h.counted hvalid hstrict).2
      rw [← hcount, ht] at htotal
      exact hend (Or.inl ⟨hstrict, by simpa using htotal, rfl⟩)

/-- A regular forced destruction readies every task, and each that was blocked waits without a
time limit. -/
theorem destroy_readies (h : s.Sound) (hvalid : s.valid = true)
    (hreg : s.Regular (.destroy true)) :
    (∀ w ∈ (s.destroy true).1.waitingTasks, w.blocked = false) ∧
      ∀ w ∈ s.waitingTasks, w.blocked = true →
        ⟨w.connection, false, false, false⟩ ∈ (s.destroy true).1.waitingTasks := by
  rw [destroy_waitingTasks hvalid]
  unfold afterForce
  rw [if_pos rfl]
  have hreg' := hreg rfl hvalid
  have hready := h.ready
  have hnodup := h.nodup
  cases hl : s.waitingTasks with
  | nil => simp [readyHead]
  | cons v l =>
    rw [hl] at hreg' hready hnodup
    rw [List.length_cons, readyHead_cons]
    constructor
    · intro w hw
      rcases List.mem_cons.mp hw with rfl | hw
      · rfl
      · by_contra hblocked
        have hhead := (hreg' w (List.mem_cons_of_mem _ hw) (by simpa using hblocked)).1
        have hvw : v = w := by simpa using hhead
        simp only [List.map_cons, List.nodup_cons] at hnodup
        exact hnodup.1 (hvw ▸ List.mem_map_of_mem hw)
    · intro w hw hblocked
      obtain ⟨hhead, htimed⟩ := hreg' w hw hblocked
      have hvw : v = w := by simpa using hhead
      have hav : w.available = false := by
        by_contra hav
        simp [hready w hw (by simpa using hav)] at hblocked
      subst hvw
      rw [htimed, hav]
      exact List.mem_cons_self

theorem Queued.free (h : s.Queued lost) : s.free.Queued lost := ⟨h.nodup, h.ready, h.counted⟩

theorem Sound.free (h : s.Sound) (hen : s.Enabled .free) : s.free.Sound := by
  have hpos : 0 < s.releasing := hen
  refine ⟨h.toQueued.free, ?_, ?_, h.pending⟩
  · intro hvalid
    have := h.intact hvalid
    omega
  · intro hinvalid
    obtain ⟨hone, hrest⟩ := h.gone hinvalid
    refine ⟨?_, hrest⟩
    simp only [SemStruct.free]
    omega

/-- A task that is ready without the semaphore stays in the queue until it runs. -/
theorem Queued.step (h : s.Queued lost) (hen : s.Enabled op) :
    (s.apply op).Queued lost ∧
      ∀ w ∈ s.waitingTasks, w.blocked = false → op ≠ .resume w.connection →
        w ∈ (s.apply op).waitingTasks := by
  cases op with
  | wait t c timed prio =>
    exact ⟨h.wait hen, fun w hw _ _ => (s.wait_kept t c timed prio).2.2.2.2.2.1 w hw⟩
  | timeout c =>
    obtain ⟨hqueued, hkept⟩ := h.timeout (c := c)
    exact ⟨hqueued, fun w hw hblocked _ => hkept w hw hblocked⟩
  | resume c =>
    obtain ⟨hqueued, hkept⟩ := h.resume hen
    refine ⟨hqueued, fun w hw _ hne => hkept w hw ?_⟩
    rintro rfl
    exact hne rfl
  | post t c =>
    obtain ⟨hqueued, hkept⟩ := h.post (t := t) (c := c)
    exact ⟨hqueued, fun w hw hblocked _ => hkept w hw hblocked⟩
  | destroy force =>
    obtain ⟨hqueued, hkept⟩ := h.destroy force
    exact ⟨hqueued, fun w hw hblocked _ => hkept w hw hblocked⟩
  | free => exact ⟨h.free, fun w hw _ _ => hw⟩

theorem Sound.step (h : s.Sound) (hen : s.Enabled op) (hreg : s.Regular op) :
    (s.apply op).Sound := by
  cases op with
  | wait t c timed prio => exact h.wait hen
  | timeout c => exact h.timeout
  | resume c => exact h.resume hen hreg
  | post t c => exact h.post hreg
  | destroy force => exact h.destroy force
  | free => exact h.free hen

/-! ## Runs -/

theorem Sound.run (h : s.Sound) (hops : s.RegularRun ops) :
    (s.run ops).Sound ∧ ∀ w ∈ s.waitingTasks, w.blocked = false → .resume w.connection ∉ ops →
      w ∈ (s.run ops).waitingTasks := by
  induction ops generalizing s with
  | nil => exact ⟨h, fun w hw _ _ => hw⟩
  | cons op ops ih =>
    obtain ⟨hen, hreg, hrest⟩ := hops
    obtain ⟨hrun, hend⟩ := ih (h.step hen hreg) hrest
    refine ⟨hrun, fun w hw hblocked hnot => ?_⟩
    rw [List.mem_cons, not_or] at hnot
    have hstay := (h.toQueued.step hen).2 w hw hblocked (Ne.symm hnot.1)
    exact hend w hstay hblocked hnot.2

theorem regularRun_append {ops' : List SemOp} :
    s.RegularRun (ops ++ ops') ↔ s.RegularRun ops ∧ (s.run ops).RegularRun ops' := by
  induction ops generalizing s with
  | nil => simp [RegularRun, SemStruct.run]
  | cons op ops ih =>
    rw [List.cons_append, RegularRun, RegularRun, ih]
    simp only [SemStruct.run, List.foldl_cons, and_assoc]

theorem create_sound {strict priorityQueueing : Bool} {initialCount : UInt32} {td : ℕ → ℕ}
    (h : create strict priorityQueueing initialCount td = some s) : s.Sound := by
  unfold create at h
  by_cases hnone : strict = true ∧ initialCount = 0
  · simp [hnone] at h
  rw [if_neg hnone] at h
  obtain rfl := Option.some.inj h
  refine ⟨⟨by simp, by simp, ?_⟩, by simp, by simp, by simp⟩
  intro _ hstrict
  have hstrict' : strict = true := hstrict
  simpa [hstrict'] using initialCount.toNat_lt

theorem Sound.releasedOnce (h : s.Sound) : s.ReleasedOnce := by
  cases hvalid : s.valid with
  | true =>
    have hzero := h.intact hvalid
    refine ⟨by omega, fun hne => absurd hzero hne, fun hdelayed hw ht => ?_⟩
    rcases h.pending hvalid hdelayed with hne | hne
    · exact absurd hw hne
    · exact absurd ht hne
  | false =>
    obtain ⟨hone, hnil, hfull⟩ := h.gone hvalid
    exact ⟨by omega, fun _ => ⟨hnil, hfull⟩, fun _ _ _ => hone⟩

/-- In a regular run the structure is released exactly once and without waiting tasks, and a
forced destruction readies every waiting task and ends its wait with `SEM_SEMAPHORE_DELETED`. -/
theorem sem_destroyed {strict priorityQueueing : Bool} {initialCount : UInt32} {td : ℕ → ℕ}
    (h : create strict priorityQueueing initialCount td = some s) (hops : s.RegularRun ops) :
    (s.run ops).ReleasedOnce ∧
      ∀ before after, ops = before ++ .destroy true :: after → (s.run before).valid = true →
        (∀ w ∈ ((s.run before).destroy true).1.waitingTasks, w.blocked = false) ∧
          ∀ w ∈ (s.run before).waitingTasks, w.blocked = true → .resume w.connection ∉ after →
            ((s.run ops).resume w.connection).2 = some .semaphoreDeleted := by
  have hsound := create_sound h
  refine ⟨(hsound.run hops).1.releasedOnce, ?_⟩
  rintro before after rfl hvalid
  obtain ⟨hbefore, hen, hreg, hafter⟩ := regularRun_append.mp hops
  have hmid := (hsound.run hbefore).1
  obtain ⟨hready, hdeleted⟩ := destroy_readies hmid hvalid hreg
  refine ⟨hready, fun w hw hblocked hnot => ?_⟩
  obtain ⟨hend, hkept⟩ := (hmid.step hen hreg).run hafter
  have hlast := hkept ⟨w.connection, false, false, false⟩ (hdeleted w hw hblocked) rfl hnot
  have hrun : s.run (before ++ .destroy true :: after) =
      ((s.run before).apply (.destroy true)).run after := by
    simp [SemStruct.run]
  rw [hrun]
  unfold SemStruct.resume
  rw [find_connection hend.nodup hlast]
  split_ifs <;> rfl

/-- A strict semaphore with one token, whose owner posts after a forced destruction has sent the
waiting task away. -/
theorem sem_destroyed_one :
    ∃ s, create true false 1 id = some s ∧
      (s.run [.wait 0 0 false id, .wait 1 1 false id, .destroy true, .resume 1, .post 0 0,
        .free]).ReleasedOnce := by
  obtain ⟨s, h⟩ : ∃ s, create true false 1 id = some s := ⟨_, rfl⟩
  refine ⟨s, h, (sem_destroyed h ?_).1⟩
  obtain rfl := Option.some.inj h
  simp [RegularRun, Enabled, Regular, apply, SemStruct.wait, SemStruct.resume, SemStruct.post,
    SemStruct.destroy, enqueue, own, spend, giveBack, wake, readyHead]

/-- Of two waiting tasks a forced destruction readies one; and after a posting that overtakes it,
a waiting task runs on a released semaphore. -/
theorem second_waiter_left :
    ∃ s, create true false 1 id = some s ∧
      (s.run [.wait 0 0 false id, .wait 1 1 false id, .wait 2 2 false id,
        .destroy true]).waitingTasks.map SemWait.blocked = [false, true] ∧
      (s.run [.wait 0 0 false id, .wait 1 1 false id, .destroy true, .post 0 0,
        .free]).waitingTasks.length = 1 ∧
      (s.run [.wait 0 0 false id, .wait 1 1 false id, .destroy true, .post 0 0,
        .free]).released = 1 :=
  ⟨_, rfl, by decide, by decide, by decide⟩

end SemStruct

end Mqx.Sync
