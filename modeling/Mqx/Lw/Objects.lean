import Mqx.Sched.Wait

/-!
# Creating lightweight objects

Lightweight semaphores, events and message queues lie in memory of the application; the
kernel keeps a list of the registered ones, and a second list for those of user tasks. The
three constructors store the initial contents first and then look for the object in the
list. The main result says when a call that fails because the object is registered leaves
its contents as they were.
-/

namespace Mqx.Lw

open Mqx.Sched

/-- Results of the calls on lightweight objects. -/
inductive Status
  | ok
  | einval
  | invalidLwsem
  | lwsemWaitTimeout
  | lweventInvalid
  | lweventWaitTimeout
  | lwmsgqInvalid
  | lwmsgqFull
  | lwmsgqEmpty
  | lwmsgqTimeout
  deriving DecidableEq, Repr

/-- `LWSEM_STRUCT`; the queue of waiting tasks is in the kernel data. -/
structure Lwsem where
  valid : ℕ
  value : ℤ

/-- `LWEVENT_STRUCT`. -/
structure Lwevent where
  valid : ℕ
  value : BitVec 32
  flags : BitVec 32
  auto : BitVec 32

/-- `LWMSGQ_STRUCT`; sizes are in words, locations are addresses. -/
structure Lwmsgq where
  valid : ℕ
  msgSize : ℕ
  maxSize : ℕ
  currentSize : ℕ
  msgWriteLoc : ℕ
  msgReadLoc : ℕ
  msgStartLoc : ℕ
  msgEndLoc : ℕ

def lwsemValid : ℕ := 0x6C77736D
def lweventValid : ℕ := 0x6C65766E
def lwmsgqValid : ℕ := 0x6C776D73
def lweventAutoClear : BitVec 32 := 0x00000001

/-- The size of `_mqx_max_type`, in which messages are measured. -/
def sizeofMaxType : ℕ := 4

def sizeofLwsem : ℕ := 28
def sizeofLwevent : ℕ := 36
def sizeofLwmsgq : ℕ := 64

/-- `&sem_ptr->TD_QUEUE`. -/
def tdQueue (sem : ℕ) : ℕ := sem + 8

/-- `&event_ptr->WAITING_TASKS`. -/
def waitingTasks (event : ℕ) : ℕ := event + 8

/-- `&q_ptr->WAITING_WRITERS`. -/
def waitingWriters (q : ℕ) : ℕ := q + 8

/-- `&q_ptr->WAITING_READERS`. -/
def waitingReaders (q : ℕ) : ℕ := q + 20

/-- The objects and the lists of the registered ones. A list whose `NEXT` is `NULL` has not
been initialised. `memCheckAccess` is what `_psp_mem_check_access_mask` answers about an
address and a size. -/
structure LwData where
  k : KernelData
  lwsem : ℕ → Lwsem
  lwevent : ℕ → Lwevent
  lwmsgq : ℕ → Lwmsgq
  lwsems : List ℕ
  usrLwsems : List ℕ
  lwevents : Option (List ℕ)
  usrLwevents : Option (List ℕ)
  lwmsgqs : Option (List ℕ)
  usrLwmsgqs : Option (List ℕ)
  memCheckAccess : ℕ → ℕ → Bool

namespace LwData

variable (s : LwData)

/-- `_QUEUE_INIT` of a queue of waiting tasks. -/
def queueInit (q : ℕ) : LwData :=
  { s with k := { s.k with queues := Function.update s.k.queues q [] } }

/-- Initialising a queue that is empty changes nothing. -/
theorem queueInit_eq_self {q : ℕ} (h : s.k.queues q = []) : s.queueInit q = s := by
  unfold queueInit
  rw [← h, Function.update_eq_self]

def setLwsem (sem : ℕ) (o : Lwsem) : LwData := { s with lwsem := Function.update s.lwsem sem o }

def setLwevent (event : ℕ) (o : Lwevent) : LwData :=
  { s with lwevent := Function.update s.lwevent event o }

def setLwmsgq (q : ℕ) (o : Lwmsgq) : LwData := { s with lwmsgq := Function.update s.lwmsgq q o }

/-- `_lwsem_create_internal`: the stores before the list is searched. -/
def lwsemStores (sem : ℕ) (initialNumber : ℤ) : LwData :=
  (s.setLwsem sem { s.lwsem sem with value := initialNumber }).queueInit (tdQueue sem)

/-- `_lwsem_create_internal`. The search of the list is `∈`. -/
def lwsemCreateInternal (sem : ℕ) (initialNumber : ℤ) (hidden user : Bool) : Status × LwData :=
  if user ∧ ¬s.memCheckAccess sem sizeofLwsem then (.invalidLwsem, s)
  else
    let s := s.lwsemStores sem initialNumber
    if ¬hidden ∧ sem ∈ (if user then s.usrLwsems else s.lwsems) then (.einval, s)
    else
      let s :=
        { s with
          usrLwsems := if ¬hidden ∧ user then s.usrLwsems ++ [sem] else s.usrLwsems
          lwsems := if ¬hidden ∧ ¬user then s.lwsems ++ [sem] else s.lwsems }
      (.ok, s.setLwsem sem { s.lwsem sem with valid := lwsemValid })

/-- `_lwevent_create_internal`: the stores before the list is searched. -/
def lweventStores (event : ℕ) (flags : BitVec 32) (user : Bool) : LwData :=
  let s := s.queueInit (waitingTasks event)
  let s := s.setLwevent event { s.lwevent event with
    value := 0
    flags := flags
    auto := if flags &&& lweventAutoClear ≠ 0 then ~~~0 else 0 }
  let s :=
    { s with
      usrLwevents := if user ∧ s.usrLwevents = none then some [] else s.usrLwevents
      lwevents := if ¬user ∧ s.lwevents = none then some [] else s.lwevents }
  s.setLwevent event { s.lwevent event with valid := lweventValid }

/-- `_lwevent_create_internal`. -/
def lweventCreateInternal (event : ℕ) (flags : BitVec 32) (user : Bool) : Status × LwData :=
  if user ∧ ¬s.memCheckAccess event sizeofLwevent then (.lweventInvalid, s)
  else
    let s := s.lweventStores event flags user
    if event ∈ (if user then s.usrLwevents else s.lwevents).getD [] then (.einval, s)
    else
      (.ok,
        { s with
          usrLwevents := if user then s.usrLwevents.map (· ++ [event]) else s.usrLwevents
          lwevents := if user then s.lwevents else s.lwevents.map (· ++ [event]) })

/-- `_lwmsgq_init_internal`: the stores before the list is searched. -/
def lwmsgqStores (q numMessages msgSize : ℕ) (user : Bool) : LwData :=
  let start := (q + sizeofLwmsgq) % 2 ^ 32
  let s := (s.queueInit (waitingWriters q)).queueInit (waitingReaders q)
  let s := s.setLwmsgq q { s.lwmsgq q with
    msgSize := msgSize
    maxSize := numMessages
    currentSize := 0
    msgStartLoc := start
    msgEndLoc := (start + sizeofMaxType * (msgSize * numMessages)) % 2 ^ 32
    msgWriteLoc := start
    msgReadLoc := start }
  let s :=
    { s with
      usrLwmsgqs := if user ∧ s.usrLwmsgqs = none then some [] else s.usrLwmsgqs
      lwmsgqs := if ¬user ∧ s.lwmsgqs = none then some [] else s.lwmsgqs }
  s.setLwmsgq q { s.lwmsgq q with valid := lwmsgqValid }

/-- `_lwmsgq_init_internal`. -/
def lwmsgqInitInternal (q numMessages msgSize : ℕ) (user : Bool) : Status × LwData :=
  if user ∧ ¬s.memCheckAccess q sizeofLwmsgq then (.einval, s)
  else
    let s := s.lwmsgqStores q numMessages msgSize user
    if q ∈ (if user then s.usrLwmsgqs else s.lwmsgqs).getD [] then (.einval, s)
    else
      (.ok,
        { s with
          usrLwmsgqs := if user then s.usrLwmsgqs.map (· ++ [q]) else s.usrLwmsgqs
          lwmsgqs := if user then s.lwmsgqs else s.lwmsgqs.map (· ++ [q]) })

end LwData

/-! ## Contents of the objects -/

/-- The semaphore has the same count and the same waiting tasks. -/
structure SameLwsem (s s' : LwData) (sem : ℕ) : Prop where
  value : (s'.lwsem sem).value = (s.lwsem sem).value
  tdQueue : s'.k.queues (tdQueue sem) = s.k.queues (tdQueue sem)

/-- The event has the same bits, flags and waiting tasks. -/
structure SameLwevent (s s' : LwData) (event : ℕ) : Prop where
  value : (s'.lwevent event).value = (s.lwevent event).value
  flags : (s'.lwevent event).flags = (s.lwevent event).flags
  auto : (s'.lwevent event).auto = (s.lwevent event).auto
  waitingTasks : s'.k.queues (waitingTasks event) = s.k.queues (waitingTasks event)

/-- The message queue has the same shape, locations, message count and waiting tasks. -/
structure SameLwmsgq (s s' : LwData) (q : ℕ) : Prop where
  msgSize : (s'.lwmsgq q).msgSize = (s.lwmsgq q).msgSize
  maxSize : (s'.lwmsgq q).maxSize = (s.lwmsgq q).maxSize
  currentSize : (s'.lwmsgq q).currentSize = (s.lwmsgq q).currentSize
  msgWriteLoc : (s'.lwmsgq q).msgWriteLoc = (s.lwmsgq q).msgWriteLoc
  msgReadLoc : (s'.lwmsgq q).msgReadLoc = (s.lwmsgq q).msgReadLoc
  msgStartLoc : (s'.lwmsgq q).msgStartLoc = (s.lwmsgq q).msgStartLoc
  msgEndLoc : (s'.lwmsgq q).msgEndLoc = (s.lwmsgq q).msgEndLoc
  waitingWriters : s'.k.queues (waitingWriters q) = s.k.queues (waitingWriters q)
  waitingReaders : s'.k.queues (waitingReaders q) = s.k.queues (waitingReaders q)

/-! ## When a failed creation changes nothing -/

/-- The semaphore is as a creation with this count leaves it. -/
def FreshLwsem (s : LwData) (sem : ℕ) (initialNumber : ℤ) : Prop :=
  (s.lwsem sem).value = initialNumber ∧ s.k.queues (tdQueue sem) = []

/-- The event is as a creation with these flags leaves it. -/
def FreshLwevent (s : LwData) (event : ℕ) (flags : BitVec 32) : Prop :=
  (s.lwevent event).value = 0 ∧ (s.lwevent event).flags = flags ∧
    (s.lwevent event).auto = (if flags &&& lweventAutoClear ≠ 0 then ~~~0 else 0) ∧
    s.k.queues (waitingTasks event) = []

/-- The message queue is as an initialisation with this shape leaves it: no message, no
waiting task. -/
def FreshLwmsgq (s : LwData) (q numMessages msgSize : ℕ) : Prop :=
  (s.lwmsgq q).msgSize = msgSize ∧ (s.lwmsgq q).maxSize = numMessages ∧
    (s.lwmsgq q).currentSize = 0 ∧
    (s.lwmsgq q).msgStartLoc = (q + sizeofLwmsgq) % 2 ^ 32 ∧
    (s.lwmsgq q).msgEndLoc =
      ((q + sizeofLwmsgq) % 2 ^ 32 + sizeofMaxType * (msgSize * numMessages)) % 2 ^ 32 ∧
    (s.lwmsgq q).msgWriteLoc = (q + sizeofLwmsgq) % 2 ^ 32 ∧
    (s.lwmsgq q).msgReadLoc = (q + sizeofLwmsgq) % 2 ^ 32 ∧
    s.k.queues (waitingWriters q) = [] ∧ s.k.queues (waitingReaders q) = []

namespace LwData

variable (s : LwData)

theorem snd_of_einval {c : Prop} [Decidable c] {s₁ s₂ : LwData}
    (h : (if c then (Status.einval, s₁) else (Status.ok, s₂)).1 = .einval) :
    (if c then (Status.einval, s₁) else (Status.ok, s₂)).2 = s₁ := by
  by_cases hc : c
  · rw [if_pos hc]
  · simp [hc] at h

/-- What a failed creation leaves behind are the stores before the search. -/
theorem lwsemCreateInternal_einval {sem : ℕ} {initialNumber : ℤ} {hidden user : Bool}
    (h : (s.lwsemCreateInternal sem initialNumber hidden user).1 = .einval) :
    (s.lwsemCreateInternal sem initialNumber hidden user).2 = s.lwsemStores sem initialNumber := by
  unfold lwsemCreateInternal at h ⊢
  by_cases ha : user ∧ ¬s.memCheckAccess sem sizeofLwsem
  · simp [ha] at h
  · rw [if_neg ha] at h ⊢
    exact snd_of_einval h

theorem lweventCreateInternal_einval {event : ℕ} {flags : BitVec 32} {user : Bool}
    (h : (s.lweventCreateInternal event flags user).1 = .einval) :
    (s.lweventCreateInternal event flags user).2 = s.lweventStores event flags user := by
  unfold lweventCreateInternal at h ⊢
  by_cases ha : user ∧ ¬s.memCheckAccess event sizeofLwevent
  · simp [ha] at h
  · rw [if_neg ha] at h ⊢
    exact snd_of_einval h

theorem lwmsgqInitInternal_einval {q numMessages msgSize : ℕ} {user : Bool}
    (ha : user → s.memCheckAccess q sizeofLwmsgq)
    (h : (s.lwmsgqInitInternal q numMessages msgSize user).1 = .einval) :
    (s.lwmsgqInitInternal q numMessages msgSize user).2 =
      s.lwmsgqStores q numMessages msgSize user := by
  unfold lwmsgqInitInternal at h ⊢
  have ha' : ¬(user ∧ ¬s.memCheckAccess q sizeofLwmsgq) := fun hn => hn.2 (ha hn.1)
  rw [if_neg ha'] at h ⊢
  exact snd_of_einval h

/-- An initialisation while nobody waits leaves the kernel as it was. -/
theorem lwmsgqInitInternal_k {q numMessages msgSize : ℕ} {user : Bool}
    (hw : s.k.queues (waitingWriters q) = []) (hr : s.k.queues (waitingReaders q) = []) :
    (s.lwmsgqInitInternal q numMessages msgSize user).2.k = s.k := by
  have hstores : (s.lwmsgqStores q numMessages msgSize user).k = s.k := by
    unfold lwmsgqStores
    rw [s.queueInit_eq_self hw, s.queueInit_eq_self hr]
    rfl
  unfold lwmsgqInitInternal
  simp only
  split_ifs
  · rfl
  all_goals exact hstores

theorem sameLwsem_stores_iff (sem : ℕ) (initialNumber : ℤ) :
    SameLwsem s (s.lwsemStores sem initialNumber) sem ↔ FreshLwsem s sem initialNumber := by
  have hv : ((s.lwsemStores sem initialNumber).lwsem sem).value = initialNumber := by
    simp [lwsemStores, queueInit, setLwsem]
  have hq : (s.lwsemStores sem initialNumber).k.queues (tdQueue sem) = [] := by
    simp [lwsemStores, queueInit]
  constructor
  · intro h
    exact ⟨h.value.symm.trans hv, h.tdQueue.symm.trans hq⟩
  · rintro ⟨h₁, h₂⟩
    exact ⟨hv.trans h₁.symm, hq.trans h₂.symm⟩

theorem sameLwevent_stores_iff (event : ℕ) (flags : BitVec 32) (user : Bool) :
    SameLwevent s (s.lweventStores event flags user) event ↔ FreshLwevent s event flags := by
  obtain ⟨o, ho⟩ : ∃ o, (s.lweventStores event flags user).lwevent event = o := ⟨_, rfl⟩
  have hfields : o.value = 0 ∧ o.flags = flags ∧
      o.auto = (if flags &&& lweventAutoClear ≠ 0 then ~~~0 else 0) := by
    rw [← ho]
    simp [lweventStores, queueInit, setLwevent]
  have hq : (s.lweventStores event flags user).k.queues (waitingTasks event) = [] := by
    simp [lweventStores, queueInit, setLwevent]
  obtain ⟨hv, hf, ha⟩ := hfields
  constructor
  · intro h
    have h₁ := h.value
    have h₂ := h.flags
    have h₃ := h.auto
    rw [ho] at h₁ h₂ h₃
    exact ⟨h₁.symm.trans hv, h₂.symm.trans hf, h₃.symm.trans ha, h.waitingTasks.symm.trans hq⟩
  · rintro ⟨h₁, h₂, h₃, h₄⟩
    constructor <;> simp only [*]

theorem sameLwmsgq_stores_iff (q numMessages msgSize : ℕ) (user : Bool) :
    SameLwmsgq s (s.lwmsgqStores q numMessages msgSize user) q ↔
      FreshLwmsgq s q numMessages msgSize := by
  obtain ⟨s', hs'⟩ : ∃ s', s.lwmsgqStores q numMessages msgSize user = s' := ⟨_, rfl⟩
  have hfresh : FreshLwmsgq s' q numMessages msgSize := by
    rw [← hs']
    simp [FreshLwmsgq, lwmsgqStores, queueInit, setLwmsgq, waitingWriters, waitingReaders]
  rw [hs']
  obtain ⟨h₁, h₂, h₃, h₄, h₅, h₆, h₇, h₈, h₉⟩ := hfresh
  constructor
  · intro h
    exact ⟨h.msgSize.symm.trans h₁, h.maxSize.symm.trans h₂, h.currentSize.symm.trans h₃,
      h.msgStartLoc.symm.trans h₄, h.msgEndLoc.symm.trans h₅, h.msgWriteLoc.symm.trans h₆,
      h.msgReadLoc.symm.trans h₇, h.waitingWriters.symm.trans h₈, h.waitingReaders.symm.trans h₉⟩
  · rintro ⟨g₁, g₂, g₃, g₄, g₅, g₆, g₇, g₈, g₉⟩
    exact ⟨h₁.trans g₁.symm, h₂.trans g₂.symm, h₃.trans g₃.symm, h₆.trans g₆.symm,
      h₇.trans g₇.symm, h₄.trans g₄.symm, h₅.trans g₅.symm, h₈.trans g₈.symm, h₉.trans g₉.symm⟩

end LwData

/-- A creation that fails because the object is registered leaves the contents of the
object as they were exactly when the object is as the same call would create it. -/
theorem failed_creation_unchanged_iff (s : LwData) :
    (∀ sem initialNumber hidden user,
      (s.lwsemCreateInternal sem initialNumber hidden user).1 = .einval →
      (SameLwsem s (s.lwsemCreateInternal sem initialNumber hidden user).2 sem ↔
        FreshLwsem s sem initialNumber)) ∧
    (∀ event flags user, (s.lweventCreateInternal event flags user).1 = .einval →
      (SameLwevent s (s.lweventCreateInternal event flags user).2 event ↔
        FreshLwevent s event flags)) ∧
    ∀ q numMessages msgSize (user : Bool), (user → s.memCheckAccess q sizeofLwmsgq) →
      (s.lwmsgqInitInternal q numMessages msgSize user).1 = .einval →
      (SameLwmsgq s (s.lwmsgqInitInternal q numMessages msgSize user).2 q ↔
        FreshLwmsgq s q numMessages msgSize) := by
  refine ⟨?_, ?_, ?_⟩
  · intro sem initialNumber hidden user h
    rw [s.lwsemCreateInternal_einval h]
    exact s.sameLwsem_stores_iff sem initialNumber
  · intro event flags user h
    rw [s.lweventCreateInternal_einval h]
    exact s.sameLwevent_stores_iff event flags user
  · intro q numMessages msgSize user ha h
    rw [s.lwmsgqInitInternal_einval ha h]
    exact s.sameLwmsgq_stores_iff q numMessages msgSize user

/-- The kernel before any object is created. -/
def bootLw (n : ℕ) : LwData where
  k := bootKernel n
  lwsem _ := ⟨0, 0⟩
  lwevent _ := ⟨0, 0, 0, 0⟩
  lwmsgq _ := ⟨0, 0, 0, 0, 0, 0, 0, 0⟩
  lwsems := []
  usrLwsems := []
  lwevents := none
  usrLwevents := none
  lwmsgqs := none
  usrLwmsgqs := none
  memCheckAccess _ _ := true

/-- A semaphore, an event and a message queue that have just been created. -/
def newObjects : LwData :=
  let s := ((bootLw 4).lwsemCreateInternal 0x100 0 false false).2
  let s := (s.lweventCreateInternal 0x200 0 false).2
  (s.lwmsgqInitInternal 0x300 2 1 false).2

theorem failed_creation_unchanged_newObjects :
    SameLwsem newObjects (newObjects.lwsemCreateInternal 0x100 0 false false).2 0x100 ∧
    SameLwevent newObjects (newObjects.lweventCreateInternal 0x200 0 false).2 0x200 ∧
    SameLwmsgq newObjects (newObjects.lwmsgqInitInternal 0x300 2 1 false).2 0x300 := by
  obtain ⟨hsem, hevent, hmsgq⟩ := failed_creation_unchanged_iff newObjects
  refine ⟨?_, ?_, ?_⟩
  · rw [hsem 0x100 0 false false (by decide)]
    exact ⟨by decide, by decide⟩
  · rw [hevent 0x200 0 false (by decide)]
    exact ⟨by decide, by decide, by decide, by decide⟩
  · rw [hmsgq 0x300 2 1 false (by decide) (by decide)]
    exact ⟨by decide, by decide, by decide, by decide, by decide, by decide, by decide,
      by decide, by decide⟩

/-- The same objects with a task waiting on each of them. -/
def awaitedObjects : LwData :=
  { newObjects with
    k := ((newObjects.k.waitOn 1 .lwsemBlocked (tdQueue 0x100)).waitOn 2 .lweventBlocked
      (waitingTasks 0x200)).waitOn 3 .lwmsgqReadBlocked (waitingReaders 0x300) }

/-- Creating the objects again fails, and the waiting tasks are on no queue any more. -/
theorem failed_creation_loses_waiters :
    ((awaitedObjects.lwsemCreateInternal 0x100 1 false false).1 = .einval ∧
      ¬SameLwsem awaitedObjects (awaitedObjects.lwsemCreateInternal 0x100 1 false false).2 0x100) ∧
    ((awaitedObjects.lweventCreateInternal 0x200 0 false).1 = .einval ∧
      ¬SameLwevent awaitedObjects (awaitedObjects.lweventCreateInternal 0x200 0 false).2 0x200) ∧
    ((awaitedObjects.lwmsgqInitInternal 0x300 2 1 false).1 = .einval ∧
      ¬SameLwmsgq awaitedObjects (awaitedObjects.lwmsgqInitInternal 0x300 2 1 false).2 0x300) := by
  refine ⟨⟨by decide, fun h => ?_⟩, ⟨by decide, fun h => ?_⟩, ⟨by decide, fun h => ?_⟩⟩
  · exact absurd h.tdQueue (by decide)
  · exact absurd h.waitingTasks (by decide)
  · exact absurd h.waitingReaders (by decide)

end Mqx.Lw
