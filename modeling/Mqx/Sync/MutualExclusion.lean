import Mqx.Sync.PriorityOrder

/-!
# Mutual exclusion

A mutex belongs to the task whose call has set its lock, or to which an unlock has handed it,
until that task unlocks it. Every event of a run either leaves all mutexes with whom they belong
to, or is one of six moves on one mutex; with them at most one task at a time has a mutex.
-/

namespace Mqx.Sync

open Mqx.Sched Mqx.Library

/-- The mutex that a call of `_mutex_lock` or `_mutex_try_lock` is about. -/
def Pc.locks : Pc → Option ℕ
  | .lockSpin q _ _ => some q
  | .lockSpinBump q _ _ => some q
  | .lockOwn q => some q
  | .lockTest q _ => some q
  | .lockBump q => some q
  | .lockWoken q => some q
  | .lockWokenBump q => some q
  | .lockProtect q => some q
  | .lockProtectBump q => some q
  | _ => none

/-- The mutex that the call has got, unless it still sleeps. -/
def Pc.enters : Pc → Option ℕ
  | .lockOwn q => some q
  | .lockWoken q => some q
  | .lockWokenBump q => some q
  | .lockProtect q => some q
  | .lockProtectBump q => some q
  | _ => none

theorem Pc.locks_of_enters {p : Pc} {q : ℕ} (h : p.enters = some q) : p.locks = some q := by
  cases p <;> first | exact h | exact absurd h (by simp [Pc.enters])

/-- Which tasks have received `MQX_EOK` from a lock of the mutex and have not unlocked it. -/
abbrev Holders := ℕ → ℕ → Prop

namespace SyncData

variable {s s' : SyncData} {held : Holders} {q t u : ℕ} {m m' : Mutex}

/-- `LOCK` and `OWNER_TD` of a mutex. -/
def lockOf (s : SyncData) (q : ℕ) : Option (Bool × ℕ) :=
  match s.object q with
  | .mutex m => some (m.lock, m.ownerTd)
  | _ => none

theorem lockOf_mutex (hm : s.object q = .mutex m) : s.lockOf q = some (m.lock, m.ownerTd) := by
  unfold lockOf
  rw [hm]

theorem lockOf_congr (h : s'.object = s.object) : s'.lockOf = s.lockOf := by
  funext q
  unfold lockOf
  rw [h]

theorem lockOf_setMutex (s : SyncData) (q : ℕ) (m : Mutex) :
    (s.setMutex q m).lockOf = Function.update s.lockOf q (some (m.lock, m.ownerTd)) := by
  funext p
  by_cases hp : p = q
  · subst hp
    rw [Function.update_self]
    exact lockOf_mutex (Function.update_self _ _ _)
  · rw [Function.update_of_ne hp]
    unfold lockOf setMutex
    simp only [Function.update_of_ne hp]

/-- A mutex may change in its other fields. -/
theorem lockOf_setMutex_same (hm : s.object q = .mutex m) (hl : m'.lock = m.lock)
    (ho : m'.ownerTd = m.ownerTd) : (s.setMutex q m').lockOf = s.lockOf := by
  rw [lockOf_setMutex, hl, ho, ← lockOf_mutex hm, Function.update_eq_self]

theorem lockOf_bump (hm : s.object q = .mutex m) : (s.bump q m).lockOf = s.lockOf :=
  lockOf_setMutex_same hm rfl rfl

theorem lockOf_bumpAt (s : SyncData) (q : ℕ) : (s.bumpAt q).lockOf = s.lockOf := by
  unfold bumpAt
  split
  · next m hm => exact lockOf_bump hm
  · rfl

theorem lockOf_bumpIf (hm : s.object q = .mutex m) (p : ℕ) :
    (s.bumpIf q m p).lockOf = s.lockOf := by
  unfold bumpIf
  split_ifs
  · exact lockOf_bump hm
  · rfl

theorem bumpAt_pc (s : SyncData) (q : ℕ) : (s.bumpAt q).pc = s.pc := by
  unfold bumpAt
  split <;> rfl

theorem bumpIf_pc (s : SyncData) (q : ℕ) (m : Mutex) (p : ℕ) : (s.bumpIf q m p).pc = s.pc := by
  unfold bumpIf
  split_ifs <;> rfl

/-! ## Whom a mutex belongs to -/

/-- The call of the task has got the mutex. -/
def Entering (s : SyncData) (t q : ℕ) : Prop :=
  (s.pc t).enters = some q ∧ t ∉ s.k.queues q

/-- The mutex belongs to the task. -/
def Has (s : SyncData) (held : Holders) (t q : ℕ) : Prop := held q t ∨ s.Entering t q

/-- What `LOCK` and `OWNER_TD` say about whom the mutex belongs to. -/
def Shows (s : SyncData) (q : ℕ) : Option ℕ → Prop
  | none => s.lockOf q = none ∨ s.lockOf q = some (false, 0)
  | some t => s.lockOf q = some (true, t) ∨
      s.lockOf q = some (true, 0) ∧ s.pc t = .lockOwn q

/-- At most one task has a mutex, and the mutex shows it. -/
structure Exclusive (s : SyncData) (held : Holders) : Prop where
  inv : s.Inv
  null : (s.k.td 0).state = .blocked
  isMutex : ∀ t q, (s.pc t).locks = some q → s.lockOf q ≠ none
  waits : ∀ t q, s.lockOf q ≠ none → t ∈ s.k.queues q →
    s.pc t = .lockWoken q ∧ (s.k.td t).state = .mutexBlocked
  apart : ∀ t q, held q t → (s.pc t).locks ≠ some q
  belongs : ∀ q, ∃ c, (∀ t, s.Has held t q ↔ c = some t) ∧ s.Shows q c

/-- A step of the kernel that leaves the waiters of the mutexes alone. -/
structure Still (s s' : SyncData) : Prop where
  inv : s'.Inv
  null : (s.k.td 0).state = .blocked → (s'.k.td 0).state = .blocked
  queues : ∀ q, s.lockOf q ≠ none → ∀ t, t ∈ s'.k.queues q ↔ t ∈ s.k.queues q
  state : ∀ t q, s.lockOf q ≠ none → t ∈ s.k.queues q → (s'.k.td t).state = (s.k.td t).state

theorem Still.waits (h : Still s s') (q t : ℕ) (hq : s.lockOf q ≠ none) (ht : t ∈ s'.k.queues q) :
    t ∈ s.k.queues q ∧ (s'.k.td t).state = (s.k.td t).state ∨
      s'.pc t = .lockWoken q ∧ (s'.k.td t).state = .mutexBlocked := by
  rw [h.queues q hq] at ht
  exact Or.inl ⟨ht, h.state t q hq ht⟩

/-- A mutex stays a mutex. -/
theorem update_ne_none {b : Bool × ℕ} (h : s.lockOf q ≠ none) (p : ℕ) :
    Function.update s.lockOf q (some b) p ≠ none ↔ s.lockOf p ≠ none := by
  by_cases hp : p = q
  · rw [hp, Function.update_self]
    exact iff_of_true (by simp) h
  · rw [Function.update_of_ne hp]

theorem Inv.still (i : s.Inv) (h : KernelData.SameWaits s.k s'.k) : Still s s' where
  inv := i.congr h
  null h0 := (h.state 0).trans h0
  queues q _ t := by rw [h.queues]
  state t _ _ _ := h.state t

theorem Inv.still_same (i : s.Inv) (h : s'.k = s.k) : Still s s' :=
  i.still (by rw [h]; exact KernelData.SameWaits.refl _)

/-! ## The history -/

/-- A lock of the mutex returns `MQX_EOK` to the task. -/
def Acquires (s s' : SyncData) (q t : ℕ) : Prop :=
  t = s.k.activePtr ∧ (s.pc t).enters = some q ∧ s'.pc t = .idle ∧ s'.result t = .eok

/-- An unlock of the mutex by the task is not refused. -/
def Releases (s : SyncData) (e : Event) (s' : SyncData) (q t : ℕ) : Prop :=
  t = s.k.activePtr ∧ e = .unlock q ∧ ¬(s'.pc t = .idle ∧ s'.result t = .einval)

def heldAfter (held : Holders) (s : SyncData) (e : Event) (s' : SyncData) : Holders :=
  fun q t => held q t ∧ ¬Releases s e s' q t ∨ Acquires s s' q t

/-! ## Moves -/

/-- What an event does to the mutexes. -/
inductive Move (s : SyncData) (e : Event) (s' : SyncData) : Prop
  /-- No mutex changes hands. -/
  | quiet (still : Still s s') (lock : s'.lockOf = s.lockOf)
      (pc : ∀ u, u ≠ s.k.activePtr → s'.pc u = s.pc u)
      (enters : (s'.pc s.k.activePtr).enters = (s.pc s.k.activePtr).enters)
      (own : ∀ q, s.pc s.k.activePtr = .lockOwn q → s'.pc s.k.activePtr = .lockOwn q)
      (locks : ∀ q, (s'.pc s.k.activePtr).locks = some q → (s.pc s.k.activePtr).locks = some q ∨
        s.lockOf q ≠ none ∧ ∀ b, s.lockOf q ≠ some (b, s.k.activePtr))
      (unlock : ∀ q, e = .unlock q →
        s'.pc s.k.activePtr = .idle ∧ s'.result s.k.activePtr = .einval)
  /-- The lock is set; a spinning task has yet to store itself as the owner. -/
  | claim (q o o' : ℕ) (still : Still s s') (old : s.lockOf q = some (false, o))
      (lock : s'.lockOf = Function.update s.lockOf q (some (true, o')))
      (pc : ∀ u, u ≠ s.k.activePtr → s'.pc u = s.pc u)
      (before : (s.pc s.k.activePtr).enters = none)
      (after : (s'.pc s.k.activePtr).enters = some q)
      (owner : o' = s.k.activePtr ∨ o' = o ∧ s'.pc s.k.activePtr = .lockOwn q)
      (unlock : ∀ q, e ≠ .unlock q)
  | own (q : ℕ) (still : Still s s') (before : s.pc s.k.activePtr = .lockOwn q)
      (lock : s'.lockOf = Function.update s.lockOf q (some (true, s.k.activePtr)))
      (pc : s'.pc = Function.update s.pc s.k.activePtr (.lockProtect q))
      (unlock : ∀ q, e ≠ .unlock q)
  /-- The active task goes to sleep. -/
  | sleep (q : ℕ) (inv : s'.Inv) (lock : s'.lockOf = s.lockOf)
      (td : ∀ u, u ≠ s.k.activePtr → s'.k.td u = s.k.td u)
      (state : (s'.k.td s.k.activePtr).state = .mutexBlocked)
      (queues : ∀ p u, u ∈ s'.k.queues p ↔ p = q ∧ u = s.k.activePtr ∨ u ∈ s.k.queues p)
      (before : (s.pc s.k.activePtr).locks = some q)
      (enters : (s.pc s.k.activePtr).enters = none)
      (pc : s'.pc = Function.update s.pc s.k.activePtr (.lockWoken q))
      (unlock : ∀ q, e ≠ .unlock q)
  /-- A lock returns. -/
  | enter (q : ℕ) (still : Still s s') (lock : s'.lockOf = s.lockOf)
      (before : s.pc s.k.activePtr = .lockProtect q ∨ s.pc s.k.activePtr = .lockProtectBump q)
      (pc : s'.pc = Function.update s.pc s.k.activePtr .idle)
      (result : s'.result s.k.activePtr = .eok) (unlock : ∀ q, e ≠ .unlock q)
  /-- An unlock without a waiter. -/
  | free (q : ℕ) (still : Still s s') (event : e = .unlock q)
      (before : s.pc s.k.activePtr = .idle) (old : s.lockOf q = some (true, s.k.activePtr))
      (lock : s'.lockOf = Function.update s.lockOf q (some (false, 0)))
      (pc : ∀ u, u ≠ s.k.activePtr → s'.pc u = s.pc u)
      (locks : (s'.pc s.k.activePtr).locks = none)
      (accepted : ¬(s'.pc s.k.activePtr = .idle ∧ s'.result s.k.activePtr = .einval))
  /-- An unlock that hands the mutex to the first waiter. -/
  | hand (q u : ℕ) (inv : s'.Inv) (event : e = .unlock q)
      (before : s.pc s.k.activePtr = .idle) (old : s.lockOf q = some (true, s.k.activePtr))
      (lock : s'.lockOf = Function.update s.lockOf q (some (true, u))) (waits : u ∈ s.k.queues q)
      (state : ∀ v, v ≠ u → (s'.k.td v).state = (s.k.td v).state)
      (queues : ∀ p v, v ∈ s'.k.queues p ↔ v ∈ s.k.queues p ∧ ¬(p = q ∧ v = u))
      (pc : ∀ v, v ≠ s.k.activePtr → s'.pc v = s.pc v)
      (locks : (s'.pc s.k.activePtr).locks = none)
      (accepted : ¬(s'.pc s.k.activePtr = .idle ∧ s'.result s.k.activePtr = .einval))

namespace Exclusive

variable {held' : Holders} {e : Event}

theorem lock_ne (x : Exclusive s held) (h : s.Has held t q) : s.lockOf q ≠ none := by
  obtain ⟨c, hc, hshows⟩ := x.belongs q
  rw [(hc t).mp h] at hshows
  rcases hshows with hl | ⟨hl, -⟩ <;> simp [hl]

theorem active_notMem (x : Exclusive s held) (q : ℕ) : s.k.activePtr ∉ s.k.queues q :=
  x.inv.wait.notMem x.inv.active q

theorem active_ne_null (x : Exclusive s held) : s.k.activePtr ≠ 0 := by
  intro h
  have hactive := x.inv.active
  rw [h, x.null] at hactive
  cases hactive

/-- The owner of a mutex that is held. -/
theorem lockOf_held (x : Exclusive s held) (h : held q t) : s.lockOf q = some (true, t) := by
  obtain ⟨c, hc, hshows⟩ := x.belongs q
  rw [(hc t).mp (Or.inl h)] at hshows
  rcases hshows with hl | ⟨-, hpc⟩
  · exact hl
  · exact absurd (by rw [hpc]; rfl) (x.apart t q h)

/-- A mutex whose owner is the active task belongs to it. -/
theorem has_iff_active (x : Exclusive s held) (h : s.lockOf q = some (true, s.k.activePtr)) :
    s.Has held t q ↔ t = s.k.activePtr := by
  obtain ⟨c, hc, hshows⟩ := x.belongs q
  have hca : c = some s.k.activePtr := by
    cases c with
    | none => rcases hshows with hl | hl <;> simp [hl] at h
    | some u =>
      rcases hshows with hl | ⟨hl, -⟩
      · rw [h] at hl
        simpa using hl.symm
      · rw [h] at hl
        exact absurd (by simpa using hl) x.active_ne_null
  rw [hc, hca]
  exact ⟨fun h => (Option.some.inj h).symm, fun h => congrArg some h.symm⟩

/-- A task has a mutex as before. -/
theorem has_congr (x : Exclusive s held) (hheld : held' q t ↔ held q t)
    (henters : (s'.pc t).enters = some q ↔ (s.pc t).enters = some q)
    (hqueue : s.lockOf q ≠ none → (t ∈ s'.k.queues q ↔ t ∈ s.k.queues q)) :
    s'.Has held' t q ↔ s.Has held t q := by
  unfold Has Entering
  rw [hheld, henters]
  refine or_congr_right (and_congr_right fun he => not_congr (hqueue ?_))
  exact x.isMutex t q (Pc.locks_of_enters he)

/-- A mutex belongs to whom it did. -/
theorem belongs_same (x : Exclusive s held) (hlock : s'.lockOf q = s.lockOf q)
    (hown : ∀ t, s.pc t = .lockOwn q → s'.pc t = .lockOwn q)
    (hhas : ∀ t, s'.Has held' t q ↔ s.Has held t q) :
    ∃ c, (∀ t, s'.Has held' t q ↔ c = some t) ∧ s'.Shows q c := by
  obtain ⟨c, hc, hshows⟩ := x.belongs q
  refine ⟨c, fun t => (hhas t).trans (hc t), ?_⟩
  cases c with
  | none =>
    unfold Shows
    rwa [hlock]
  | some t =>
    unfold Shows
    rw [hlock]
    exact hshows.imp_right fun h => ⟨h.1, hown t h.2⟩

/-- What is left to show of a step of the active task. -/
theorem of_step (x : Exclusive s held) (inv : s'.Inv) (null : (s'.k.td 0).state = .blocked)
    (some_iff : ∀ q, s'.lockOf q ≠ none ↔ s.lockOf q ≠ none)
    (pc : ∀ u, u ≠ s.k.activePtr → s'.pc u = s.pc u)
    (locks : ∀ q, (s'.pc s.k.activePtr).locks = some q →
      s.lockOf q ≠ none ∧ ¬held' q s.k.activePtr)
    (waits : ∀ q t, s.lockOf q ≠ none → t ∈ s'.k.queues q →
      t ∈ s.k.queues q ∧ (s'.k.td t).state = (s.k.td t).state ∨
        s'.pc t = .lockWoken q ∧ (s'.k.td t).state = .mutexBlocked)
    (holds : ∀ t q, t ≠ s.k.activePtr → held' q t → held q t)
    (belongs : ∀ q, ∃ c, (∀ t, s'.Has held' t q ↔ c = some t) ∧ s'.Shows q c) :
    Exclusive s' held' := by
  refine ⟨inv, null, fun t q h => ?_, fun t q hq ht => ?_, fun t q h hl => ?_, belongs⟩
  · rw [some_iff]
    by_cases ht : t = s.k.activePtr
    · subst ht
      exact (locks q h).1
    · rw [pc t ht] at h
      exact x.isMutex t q h
  · rw [some_iff] at hq
    rcases waits q t hq ht with ⟨hold, hstate⟩ | hnew
    · have hne : t ≠ s.k.activePtr := fun h => x.active_notMem q (h ▸ hold)
      rw [pc t hne, hstate]
      exact x.waits t q hq hold
    · exact hnew
  · by_cases ht : t = s.k.activePtr
    · subst ht
      exact (locks q hl).2 h
    · rw [pc t ht] at hl
      exact x.apart t q (holds t q ht h) hl

theorem quiet (x : Exclusive s held) (still : Still s s') (lock : s'.lockOf = s.lockOf)
    (pc : ∀ u, u ≠ s.k.activePtr → s'.pc u = s.pc u)
    (enters : (s'.pc s.k.activePtr).enters = (s.pc s.k.activePtr).enters)
    (own : ∀ q, s.pc s.k.activePtr = .lockOwn q → s'.pc s.k.activePtr = .lockOwn q)
    (locks : ∀ q, (s'.pc s.k.activePtr).locks = some q → (s.pc s.k.activePtr).locks = some q ∨
      s.lockOf q ≠ none ∧ ∀ b, s.lockOf q ≠ some (b, s.k.activePtr)) : Exclusive s' held := by
  refine x.of_step still.inv (still.null x.null) (fun q => by rw [lock]) pc (fun q h => ?_)
    still.waits (fun _ _ _ h => h) fun q => ?_
  · rcases locks q h with hold | ⟨hmutex, hne⟩
    · exact ⟨x.isMutex _ q hold, fun hh => x.apart _ q hh hold⟩
    · exact ⟨hmutex, fun hh => hne true (x.lockOf_held hh)⟩
  · refine x.belongs_same (by rw [lock]) (fun t ht => ?_) fun t => ?_
    · by_cases hta : t = s.k.activePtr
      · subst hta
        exact own q ht
      · rw [pc t hta, ht]
    · refine x.has_congr Iff.rfl ?_ fun hq => still.queues q hq t
      by_cases hta : t = s.k.activePtr
      · rw [hta, enters]
      · rw [pc t hta]

theorem claim (x : Exclusive s held) {o o' : ℕ} (still : Still s s')
    (old : s.lockOf q = some (false, o))
    (lock : s'.lockOf = Function.update s.lockOf q (some (true, o')))
    (pc : ∀ u, u ≠ s.k.activePtr → s'.pc u = s.pc u)
    (before : (s.pc s.k.activePtr).enters = none) (after : (s'.pc s.k.activePtr).enters = some q)
    (owner : o' = s.k.activePtr ∨ o' = o ∧ s'.pc s.k.activePtr = .lockOwn q) :
    Exclusive s' held := by
  have hlocks := Pc.locks_of_enters after
  -- the mutex belongs to nobody
  have hfree : o = 0 ∧ ∀ t, ¬s.Has held t q := by
    obtain ⟨c, hc, hshows⟩ := x.belongs q
    cases c with
    | none =>
      rcases hshows with hl | hl
      · simp [hl] at old
      · rw [old] at hl
        exact ⟨by simpa using hl, fun t ht => by simpa using (hc t).mp ht⟩
    | some u => rcases hshows with hl | ⟨hl, -⟩ <;> simp [hl] at old
  have hothers : ∀ t p, t ≠ s.k.activePtr → (s'.Has held t p ↔ s.Has held t p) := fun t p ht =>
    x.has_congr Iff.rfl (by rw [pc t ht]) fun hp => still.queues p hp t
  refine x.of_step still.inv (still.null x.null) (fun p => ?_) pc (fun p h => ?_) still.waits
    (fun _ _ _ h => h) fun p => ?_
  · rw [lock]
    exact update_ne_none (by simp [old]) p
  · rw [hlocks] at h
    rw [← Option.some.inj h, old]
    exact ⟨by simp, fun hh => hfree.2 _ (Or.inl hh)⟩
  · by_cases hp : p = q
    · subst hp
      refine ⟨some s.k.activePtr, fun t => ?_, ?_⟩
      · by_cases ht : t = s.k.activePtr
        · subst ht
          refine iff_of_true (Or.inr ⟨after, ?_⟩) rfl
          rw [still.queues p (by simp [old])]
          exact x.active_notMem p
        · rw [hothers t p ht]
          exact iff_of_false (hfree.2 t) fun h => ht (Option.some.inj h).symm
      · unfold Shows
        rw [lock, Function.update_self]
        rcases owner with rfl | ⟨rfl, hown⟩
        · exact Or.inl rfl
        · exact Or.inr ⟨by rw [hfree.1], hown⟩
    · refine x.belongs_same (by rw [lock, Function.update_of_ne hp]) (fun t ht => ?_) fun t => ?_
      · have hta : t ≠ s.k.activePtr := by
          rintro rfl
          rw [ht] at before
          cases before
        rw [pc t hta, ht]
      · by_cases ht : t = s.k.activePtr
        · subst ht
          refine x.has_congr Iff.rfl ?_ fun hp => still.queues p hp _
          rw [after, before]
          exact iff_of_false (fun h => hp (Option.some.inj h).symm) (by simp)
        · exact hothers t p ht

theorem own (x : Exclusive s held) (still : Still s s') (before : s.pc s.k.activePtr = .lockOwn q)
    (lock : s'.lockOf = Function.update s.lockOf q (some (true, s.k.activePtr)))
    (pc : s'.pc = Function.update s.pc s.k.activePtr (.lockProtect q)) : Exclusive s' held := by
  have hlocks : (s.pc s.k.activePtr).locks = some q := by rw [before]; rfl
  have hmutex := x.isMutex _ q hlocks
  have hself : s'.pc s.k.activePtr = .lockProtect q := by rw [pc, Function.update_self]
  have hother : ∀ u, u ≠ s.k.activePtr → s'.pc u = s.pc u := fun u hu => by
    rw [pc, Function.update_of_ne hu]
  have hhas : ∀ t p, s'.Has held t p ↔ s.Has held t p := by
    intro t p
    refine x.has_congr Iff.rfl ?_ fun hp => still.queues p hp t
    by_cases ht : t = s.k.activePtr
    · rw [ht, hself, before]
      exact Iff.rfl
    · rw [hother t ht]
  refine x.of_step still.inv (still.null x.null) (fun p => ?_) hother (fun p h => ?_) still.waits
    (fun _ _ _ h => h) fun p => ?_
  · rw [lock]
    exact update_ne_none hmutex p
  · have hp : q = p := by
      rw [hself] at h
      exact Option.some.inj h
    subst hp
    exact ⟨hmutex, fun hh => x.apart _ q hh hlocks⟩
  · by_cases hp : p = q
    · subst hp
      obtain ⟨c, hc, -⟩ := x.belongs p
      have hca : c = some s.k.activePtr :=
        (hc _).mp (Or.inr ⟨by rw [before]; rfl, x.active_notMem p⟩)
      refine ⟨c, fun t => (hhas t p).trans (hc t), ?_⟩
      rw [hca]
      exact Or.inl (by rw [lock, Function.update_self])
    · refine x.belongs_same (by rw [lock, Function.update_of_ne hp]) (fun t ht => ?_)
        fun t => hhas t p
      have hta : t ≠ s.k.activePtr := by
        rintro rfl
        rw [before] at ht
        exact hp (Pc.lockOwn.inj ht).symm
      rw [hother t hta, ht]

theorem sleep (x : Exclusive s held) (inv : s'.Inv) (lock : s'.lockOf = s.lockOf)
    (td : ∀ u, u ≠ s.k.activePtr → s'.k.td u = s.k.td u)
    (state : (s'.k.td s.k.activePtr).state = .mutexBlocked)
    (queues : ∀ p u, u ∈ s'.k.queues p ↔ p = q ∧ u = s.k.activePtr ∨ u ∈ s.k.queues p)
    (before : (s.pc s.k.activePtr).locks = some q) (enters : (s.pc s.k.activePtr).enters = none)
    (pc : s'.pc = Function.update s.pc s.k.activePtr (.lockWoken q)) : Exclusive s' held := by
  have hself : s'.pc s.k.activePtr = .lockWoken q := by rw [pc, Function.update_self]
  have hother : ∀ u, u ≠ s.k.activePtr → s'.pc u = s.pc u := fun u hu => by
    rw [pc, Function.update_of_ne hu]
  refine x.of_step inv ?_ (fun p => by rw [lock]) hother (fun p h => ?_) (fun p t _ ht => ?_)
    (fun _ _ _ h => h) fun p => ?_
  · rw [td 0 x.active_ne_null.symm]
    exact x.null
  · have hp : q = p := by
      rw [hself] at h
      exact Option.some.inj h
    subst hp
    exact ⟨x.isMutex _ q before, fun hh => x.apart _ q hh before⟩
  · rcases (queues p t).mp ht with ⟨rfl, rfl⟩ | hold
    · exact Or.inr ⟨hself, state⟩
    · have hne : t ≠ s.k.activePtr := fun h => x.active_notMem p (h ▸ hold)
      exact Or.inl ⟨hold, by rw [td t hne]⟩
  · refine x.belongs_same (by rw [lock]) (fun t ht => ?_) fun t => ?_
    · have hta : t ≠ s.k.activePtr := by
        rintro rfl
        rw [ht] at enters
        cases enters
      rw [hother t hta, ht]
    · by_cases hta : t = s.k.activePtr
      · subst hta
        unfold Has Entering
        rw [hself, enters, queues]
        refine or_congr_right (iff_of_false ?_ (by simp))
        rintro ⟨h, hnot⟩
        exact hnot (Or.inl ⟨(Option.some.inj h).symm, rfl⟩)
      · refine x.has_congr Iff.rfl (by rw [hother t hta]) fun _ => ?_
        rw [queues]
        simp [hta]

theorem enter (x : Exclusive s held) (still : Still s s') (lock : s'.lockOf = s.lockOf)
    (before : (s.pc s.k.activePtr).enters = some q) (hnot : s.pc s.k.activePtr ≠ .lockOwn q)
    (pc : s'.pc = Function.update s.pc s.k.activePtr .idle)
    (hheld : ∀ p t, held' p t ↔ held p t ∨ t = s.k.activePtr ∧ p = q) : Exclusive s' held' := by
  have hself : s'.pc s.k.activePtr = .idle := by rw [pc, Function.update_self]
  have hother : ∀ u, u ≠ s.k.activePtr → s'.pc u = s.pc u := fun u hu => by
    rw [pc, Function.update_of_ne hu]
  refine x.of_step still.inv (still.null x.null) (fun p => by rw [lock]) hother (fun p h => ?_)
    still.waits (fun t p ht h => ?_) fun p => ?_
  · rw [hself] at h
    cases h
  · exact ((hheld p t).mp h).resolve_right fun h => ht h.1
  · refine x.belongs_same (by rw [lock]) (fun t ht => ?_) fun t => ?_
    · have hta : t ≠ s.k.activePtr := by
        rintro rfl
        rw [ht] at before
        rw [Option.some.inj before] at ht
        exact hnot ht
      rw [hother t hta, ht]
    · by_cases hta : t = s.k.activePtr
      · subst hta
        unfold Has Entering
        rw [hself, before, hheld]
        simp only [Pc.enters, reduceCtorEq, false_and, or_false, true_and, Option.some.injEq]
        refine or_congr_right ⟨fun h => ⟨h.symm, x.active_notMem p⟩, fun h => h.1.symm⟩
      · refine x.has_congr ?_ (by rw [hother t hta]) fun hp => still.queues p hp t
        rw [hheld]
        simp [hta]

/-- An unlock; `c` is the waiter that gets the mutex. -/
theorem release (x : Exclusive s held) {c : Option ℕ} {l : Bool × ℕ} (inv : s'.Inv)
    (null : (s'.k.td 0).state = .blocked) (before : s.pc s.k.activePtr = .idle)
    (old : s.lockOf q = some (true, s.k.activePtr))
    (lock : s'.lockOf = Function.update s.lockOf q (some l))
    (pc : ∀ v, v ≠ s.k.activePtr → s'.pc v = s.pc v) (locks : (s'.pc s.k.activePtr).locks = none)
    (queues : ∀ p v, s.lockOf p ≠ none →
      (v ∈ s'.k.queues p ↔ v ∈ s.k.queues p ∧ ¬(p = q ∧ c = some v)))
    (state : ∀ p v, s.lockOf p ≠ none → v ∈ s'.k.queues p →
      (s'.k.td v).state = (s.k.td v).state)
    (next : c = none ∧ l = (false, 0) ∨ ∃ u, c = some u ∧ u ∈ s.k.queues q ∧ l = (true, u))
    (hheld : ∀ p t, held' p t ↔ held p t ∧ ¬(t = s.k.activePtr ∧ p = q)) :
    Exclusive s' held' := by
  have hmutex : s.lockOf q ≠ none := by simp [old]
  have henters : (s'.pc s.k.activePtr).enters ≠ some q := fun h => by
    rw [Pc.locks_of_enters h] at locks
    cases locks
  -- nothing changes for the others
  have hothers : ∀ t p, t ≠ s.k.activePtr → ¬(p = q ∧ c = some t) →
      (s'.Has held' t p ↔ s.Has held t p) := by
    intro t p ht hc
    refine x.has_congr ?_ (by rw [pc t ht]) fun hp => ?_
    · rw [hheld]
      simp [ht]
    · rw [queues p t hp]
      simp [hc]
  have hself : ¬s'.Has held' s.k.activePtr q := by
    rintro (h | h)
    · exact ((hheld q _).mp h).2 ⟨rfl, rfl⟩
    · exact henters h.1
  refine x.of_step inv null (fun p => ?_) pc (fun p h => ?_) (fun p t hp ht => ?_)
    (fun t p _ h => ((hheld p t).mp h).1) fun p => ?_
  · rw [lock]
    exact update_ne_none hmutex p
  · rw [locks] at h
    cases h
  · exact Or.inl ⟨((queues p t hp).mp ht).1, state p t hp ht⟩
  · by_cases hp : p = q
    · subst hp
      refine ⟨c, fun t => ?_, ?_⟩
      · by_cases hta : t = s.k.activePtr
        · subst hta
          refine iff_of_false hself fun hc => ?_
          rcases next with ⟨rfl, -⟩ | ⟨u, rfl, hu, -⟩
          · cases hc
          · rw [Option.some.inj hc] at hu
            exact x.active_notMem p hu
        · by_cases hc : c = some t
          · refine iff_of_true (Or.inr ⟨?_, ?_⟩) hc
            · rcases next with ⟨rfl, -⟩ | ⟨u, rfl, hu, -⟩
              · cases hc
              · rw [pc t hta, ← Option.some.inj hc, (x.waits u p hmutex hu).1]
                rfl
            · rw [queues p t hmutex]
              exact fun h => h.2 ⟨rfl, hc⟩
          · rw [hothers t p hta (fun h => hc h.2), x.has_iff_active old]
            exact iff_of_false hta hc
      · rcases next with ⟨rfl, rfl⟩ | ⟨u, rfl, -, rfl⟩
        · exact Or.inr (by rw [lock, Function.update_self])
        · exact Or.inl (by rw [lock, Function.update_self])
    · refine x.belongs_same (by rw [lock, Function.update_of_ne hp]) (fun t ht => ?_) fun t => ?_
      · have hta : t ≠ s.k.activePtr := by
          rintro rfl
          rw [before] at ht
          cases ht
        rw [pc t hta, ht]
      · by_cases hta : t = s.k.activePtr
        · subst hta
          refine x.has_congr ?_ (iff_of_false (fun h => ?_) (by rw [before]; simp [Pc.enters]))
            fun hmp => ?_
          · rw [hheld]
            simp [hp]
          · rw [Pc.locks_of_enters h] at locks
            cases locks
          · rw [queues p _ hmp]
            simp [hp]
        · exact hothers t p hta fun h => hp h.1

/-- The holders after an event that is no accepted unlock. -/
theorem heldAfter_iff (hrel : ∀ q, e = .unlock q →
    s'.pc s.k.activePtr = .idle ∧ s'.result s.k.activePtr = .einval) (p t : ℕ) :
    heldAfter held s e s' p t ↔ held p t ∨ Acquires s s' p t := by
  unfold heldAfter Releases
  refine or_congr_left ⟨fun h => h.1, fun h => ⟨h, ?_⟩⟩
  rintro ⟨rfl, he, hacc⟩
  exact hacc (hrel p he)

/-- The holders after an event in which no call of a lock returns. -/
theorem heldAfter_eq (hrel : ∀ q, e = .unlock q →
    s'.pc s.k.activePtr = .idle ∧ s'.result s.k.activePtr = .einval)
    (hacq : (s.pc s.k.activePtr).enters = none ∨ s'.pc s.k.activePtr ≠ .idle) :
    heldAfter held s e s' = held := by
  funext p t
  refine propext ((heldAfter_iff hrel p t).trans (or_iff_left ?_))
  rintro ⟨rfl, henters, hidle, -⟩
  rcases hacq with h | h
  · rw [henters] at h
    cases h
  · exact h hidle

theorem heldAfter_unlock (he : e = .unlock q) (before : s.pc s.k.activePtr = .idle)
    (hacc : ¬(s'.pc s.k.activePtr = .idle ∧ s'.result s.k.activePtr = .einval)) (p t : ℕ) :
    heldAfter held s e s' p t ↔ held p t ∧ ¬(t = s.k.activePtr ∧ p = q) := by
  unfold heldAfter Releases Acquires
  rw [he]
  constructor
  · rintro (⟨h, hrel⟩ | ⟨rfl, h, -⟩)
    · refine ⟨h, ?_⟩
      rintro ⟨rfl, rfl⟩
      exact hrel ⟨rfl, rfl, hacc⟩
    · rw [before] at h
      cases h
  · rintro ⟨h, hnot⟩
    refine Or.inl ⟨h, ?_⟩
    rintro ⟨rfl, hq, -⟩
    exact hnot ⟨rfl, (Event.unlock.inj hq).symm⟩

/-- Mutual exclusion is kept by every move. -/
theorem move (x : Exclusive s held) (m : Move s e s') : Exclusive s' (heldAfter held s e s') := by
  cases m with
  | quiet still lock pc enters own locks unlock =>
    rw [heldAfter_eq unlock]
    · exact x.quiet still lock pc enters own locks
    · rw [← enters, or_iff_not_imp_right, not_not]
      intro h
      rw [h]
      rfl
  | claim q o o' still old lock pc before after owner unlock =>
    rw [heldAfter_eq (fun q h => absurd h (unlock q)) (Or.inl before)]
    exact x.claim still old lock pc before after owner
  | own q still before lock pc unlock =>
    rw [heldAfter_eq (fun q h => absurd h (unlock q))]
    · exact x.own still before lock pc
    · right
      rw [pc, Function.update_self]
      exact Pc.noConfusion
  | sleep q inv lock td state queues before enters pc unlock =>
    rw [heldAfter_eq (fun q h => absurd h (unlock q)) (Or.inl enters)]
    exact x.sleep inv lock td state queues before enters pc
  | enter q still lock before pc result unlock =>
    have henters : (s.pc s.k.activePtr).enters = some q := by
      rcases before with h | h <;> rw [h] <;> rfl
    have hown : s.pc s.k.activePtr ≠ .lockOwn q := by
      rcases before with h | h <;> rw [h] <;> exact Pc.noConfusion
    refine x.enter still lock henters hown pc fun p t => ?_
    rw [heldAfter_iff fun q h => absurd h (unlock q)]
    refine or_congr_right ⟨?_, ?_⟩
    · rintro ⟨rfl, h, -⟩
      rw [henters] at h
      exact ⟨rfl, (Option.some.inj h).symm⟩
    · rintro ⟨rfl, rfl⟩
      exact ⟨rfl, henters, by rw [pc, Function.update_self], result⟩
  | free q still event before old lock pc locks accepted =>
    refine x.release still.inv (still.null x.null) before old lock pc locks (fun p v hp => ?_)
      (fun p v hp hv => ?_) (Or.inl ⟨rfl, rfl⟩) (heldAfter_unlock event before accepted)
    · rw [still.queues p hp]
      simp
    · rw [still.queues p hp] at hv
      exact still.state v p hp hv
  | hand q u inv event before old lock waits state queues pc locks accepted =>
    have hstate := (x.waits u q (by simp [old]) waits).2
    refine x.release inv ?_ before old lock pc locks (fun p v _ => ?_) (fun p v hp hv => ?_)
      (Or.inr ⟨u, rfl, waits, rfl⟩) (heldAfter_unlock event before accepted)
    · rw [state 0, x.null]
      rintro rfl
      rw [x.null] at hstate
      cases hstate
    · rw [queues, Option.some.injEq]
      simp only [eq_comm]
    · obtain ⟨hv, hne⟩ := (queues p v).mp hv
      refine state v fun h => hne ⟨?_, h⟩
      rw [h] at hv
      exact x.inv.placed.unique hv waits

end Exclusive

/-! ## The events are moves -/

section Moves

variable {e : Event} {p : Pc}

/-- The pc of the active task goes on, and no mutex changes hands. -/
theorem Move.goto (still : Still s s') (lock : s'.lockOf = s.lockOf)
    (hpc : s'.pc = Function.update s.pc s.k.activePtr p)
    (henters : p.enters = (s.pc s.k.activePtr).enters) (hown : ∀ q, s.pc s.k.activePtr ≠ .lockOwn q)
    (hlocks : ∀ q, p.locks = some q → (s.pc s.k.activePtr).locks = some q ∨
      s.lockOf q ≠ none ∧ ∀ b, s.lockOf q ≠ some (b, s.k.activePtr))
    (hunlock : ∀ q, e = .unlock q → p = .idle ∧ s'.result s.k.activePtr = .einval) :
    Move s e s' := by
  have hself : s'.pc s.k.activePtr = p := by rw [hpc, Function.update_self]
  refine .quiet still lock (fun u hu => by rw [hpc, Function.update_of_ne hu])
    (by rw [hself, henters]) (fun q h => absurd h (hown q)) ?_ ?_
  · rw [hself]
    exact hlocks
  · rw [hself]
    exact hunlock

/-- The pcs stay. -/
theorem Move.same (still : Still s s') (lock : s'.lockOf = s.lockOf) (hpc : s'.pc = s.pc)
    (hunlock : ∀ q, e ≠ .unlock q) : Move s e s' :=
  .quiet still lock (fun u _ => by rw [hpc]) (by rw [hpc]) (fun q h => by rw [hpc, h])
    (fun q h => Or.inl (by rwa [hpc] at h)) fun q h => absurd h (hunlock q)

theorem switchTo_eq (h : s.switchTo u = some s') :
    (s.k.td u).state = .ready ∧ s' = { s with k := s.k.dispatch u } := by
  unfold switchTo at h
  split_ifs at h with hu
  exact ⟨hu, (Option.some.inj h).symm⟩

theorem Still.switchTo {s₁ : SyncData} (h : Still s s₁) (hs : s₁.switchTo u = some s') :
    Still s s' := by
  obtain ⟨hu, rfl⟩ := switchTo_eq hs
  exact ⟨⟨h.inv.wait.dispatch u, hu⟩, h.null, h.queues, h.state⟩

/-- A call returns where it has nothing to give back. -/
theorem Move.finish {r : Status} (i : s.Inv) (henters : (s.pc s.k.activePtr).enters = none)
    (hown : ∀ q, s.pc s.k.activePtr ≠ .lockOwn q) (hunlock : ∀ q, e = .unlock q → r = .einval) :
    Move s e (s.finish r) := by
  refine .goto (p := .idle) (i.still_same rfl) rfl rfl henters.symm hown (fun q h => ?_)
    fun q h => ⟨rfl, ?_⟩
  · cases h
  · rw [hunlock q h]
    exact Function.update_self _ _ _

theorem move_mutexLock (i : s.Inv) (hidle : s.pc s.k.activePtr = .idle) (q : ℕ) :
    Move s (.lock q) (s.mutexLock q) := by
  have hown : ∀ q, s.pc s.k.activePtr ≠ .lockOwn q := fun q => by rw [hidle]; exact Pc.noConfusion
  have henters : (s.pc s.k.activePtr).enters = none := by rw [hidle]; rfl
  have hfinish : ∀ r, Move s (.lock q) (s.finish r) := fun r =>
    .finish i henters hown fun _ h => Event.noConfusion h
  unfold mutexLock
  split
  · next m hm =>
    split_ifs with howner
    · exact hfinish _
    have hgoto : ∀ p : Pc, p.enters = none → p.locks = some q → Move s (.lock q) (s.goto p) := by
      intro p hp hl
      refine .goto (i.still_same rfl) rfl rfl (hp.trans henters.symm) hown (fun r h => Or.inr ?_)
        fun _ h => Event.noConfusion h
      rw [hl] at h
      rw [← Option.some.inj h, lockOf_mutex hm]
      refine ⟨by simp, fun b hb => howner ?_⟩
      exact congrArg Prod.snd (Option.some.inj hb)
    split
    · exact hgoto _ rfl rfl
    · exact hgoto _ rfl rfl
    · exact hgoto _ rfl rfl
  · exact hfinish _

theorem move_mutexTryLock (i : s.Inv) (hidle : s.pc s.k.activePtr = .idle) (q : ℕ) :
    Move s (.tryLock q) (s.mutexTryLock q) := by
  have hown : ∀ q, s.pc s.k.activePtr ≠ .lockOwn q := fun q => by rw [hidle]; exact Pc.noConfusion
  have henters : (s.pc s.k.activePtr).enters = none := by rw [hidle]; rfl
  have hfinish : ∀ r, Move s (.tryLock q) (s.finish r) := fun r =>
    .finish i henters hown fun _ h => Event.noConfusion h
  unfold mutexTryLock
  split
  · next m hm =>
    split_ifs with hlock
    · exact hfinish _
    · exact hfinish _
    · refine .claim q m.ownerTd s.k.activePtr (i.still_same rfl) ?_ (lockOf_setMutex _ _ _) ?_
        henters ?_ (Or.inl rfl) fun _ h => Event.noConfusion h
      · rw [lockOf_mutex hm]
        simpa using hlock
      · exact fun u hu => Function.update_of_ne hu _ _
      · change Pc.enters (Function.update s.pc s.k.activePtr (.lockProtect q) s.k.activePtr) = _
        rw [Function.update_self]
        rfl
  · exact hfinish _

/-- A boost of a task, and on to the next section. -/
theorem Move.boost (i : s.Inv) (t prio : ℕ)
    (henters : p.enters = (s.pc s.k.activePtr).enters) (hown : ∀ q, s.pc s.k.activePtr ≠ .lockOwn q)
    (hlocks : ∀ q, p.locks = some q → (s.pc s.k.activePtr).locks = some q)
    (hunlock : ∀ q, e ≠ .unlock q) : Move s e ((s.boost t prio).goto p) := by
  have hsame := KernelData.sameWaits_schedBoostPriorityInternal (k := s.k) t prio
  refine .goto (p := p) (i.still hsame) rfl ?_ henters hown (fun q h => Or.inl (hlocks q h))
    fun q h => absurd h (hunlock q)
  change Function.update s.pc (s.k.schedBoostPriorityInternal t prio).activePtr p = _
  rw [hsame.activePtr]

/-- A yield, and on with the loop. -/
theorem Move.spinYield {s₁ : SyncData} (i : s.Inv) {prio count : ℕ} (hk : s₁.k = s.k)
    (hlock : s₁.lockOf = s.lockOf) (hpc : s₁.pc = s.pc)
    (henters : (s.pc s.k.activePtr).enters = none) (hlocks : (s.pc s.k.activePtr).locks = some q)
    (hown : ∀ q, s.pc s.k.activePtr ≠ .lockOwn q) (hunlock : ∀ q, e ≠ .unlock q)
    (h : s₁.spinYield q prio count u = some s') : Move s e s' := by
  unfold SyncData.spinYield at h
  have hsame : KernelData.SameWaits s.k s₁.k.schedYield := by
    rw [hk]
    exact KernelData.sameWaits_schedYield i.active
  have hstill : Still s { s₁.goto (.lockSpin q prio count) with k := s₁.k.schedYield } :=
    i.still hsame
  have hstill' := hstill.switchTo h
  obtain ⟨-, rfl⟩ := switchTo_eq h
  refine .goto (p := .lockSpin q prio count) hstill' hlock ?_ henters.symm hown (fun r hr => ?_)
    fun q h => absurd h (hunlock q)
  · change Function.update s₁.pc s₁.k.activePtr _ = _
    rw [hpc, hk]
  · rw [hlocks]
    exact Or.inl hr

/-- The active task goes to sleep on the mutex. -/
theorem Move.lockSleep {s₁ : SyncData} (i : s.Inv) (hk : s₁.k = s.k)
    (hlock : s₁.lockOf = s.lockOf) (hpc : s₁.pc = s.pc)
    (henters : (s.pc s.k.activePtr).enters = none) (hlocks : (s.pc s.k.activePtr).locks = some q)
    (hunlock : ∀ q, e ≠ .unlock q) (h : s₁.lockSleep q m u = some s') : Move s e s' := by
  unfold SyncData.lockSleep at h
  obtain ⟨hu, rfl⟩ := switchTo_eq h
  simp only [hk] at hu ⊢
  have hwait : WaitInv (s.k.blockOn (decide (m.waitProtocol = .priorityQueueing)) s.k.activePtr
      .mutexBlocked q) := i.wait.blockOn i.active rfl q _
  refine .sleep q ⟨hwait.dispatch u, hu⟩ hlock (fun v hv => ?_) ?_ (fun r v => ?_) hlocks henters ?_
    hunlock
  · exact KernelData.blockOn_td_of_ne _ _ _ hv
  · change ((s.k.blockOn _ s.k.activePtr .mutexBlocked q).td s.k.activePtr).state = _
    rw [KernelData.blockOn_td_self]
  · change v ∈ (s.k.blockOn _ s.k.activePtr .mutexBlocked q).queues r ↔ _
    rw [KernelData.blockOn_queues]
    by_cases hr : r = q
    · subst hr
      rw [Function.update_self]
      split_ifs <;> simp [or_comm]
    · rw [Function.update_of_ne hr]
      simp [hr]
  · change Function.update s₁.pc s₁.k.activePtr _ = _
    rw [hpc, hk]

theorem move_lockSpin (i : s.Inv) {prio count : ℕ}
    (hpc : s.pc s.k.activePtr = .lockSpin q prio count)
    (h : s.lockSpin q prio count u = some s') : Move s (.run u) s' := by
  have henters : (s.pc s.k.activePtr).enters = none := by rw [hpc]; rfl
  have hlocks : (s.pc s.k.activePtr).locks = some q := by rw [hpc]; rfl
  have hown : ∀ q, s.pc s.k.activePtr ≠ .lockOwn q := fun q => by rw [hpc]; exact Pc.noConfusion
  have hrun : ∀ q, Event.run u ≠ .unlock q := fun _ h => Event.noConfusion h
  unfold lockSpin at h
  split at h
  · next m hm =>
    by_cases hcount : count = 0
    · rw [if_pos hcount] at h
      rw [← Option.some.inj h]
      exact .finish i henters hown fun q h => absurd h (hrun q)
    rw [if_neg hcount] at h
    by_cases hlock : m.lock = true
    · rw [if_pos hlock] at h
      simp only at h
      generalize (if m.waitProtocol = .limitedSpin then count - 1 else count) = c at h
      split_ifs at h with hboost
      · rw [← Option.some.inj h]
        exact .boost i _ _ henters.symm hown (fun r hr => by rw [hlocks]; exact hr) hrun
      · exact .spinYield i (bumpIf_k q m prio) (lockOf_bumpIf hm prio) (bumpIf_pc s q m prio)
          henters hlocks hown hrun h
    · rw [if_neg hlock] at h
      rw [← Option.some.inj h]
      refine .claim q m.ownerTd m.ownerTd (i.still_same rfl) ?_ (lockOf_setMutex _ _ _)
        (fun v hv => Function.update_of_ne hv _ _) henters ?_ (Or.inr ⟨rfl, ?_⟩) hrun
      · rw [lockOf_mutex hm]
        simpa using hlock
      · change Pc.enters (Function.update s.pc s.k.activePtr (.lockOwn q) s.k.activePtr) = _
        rw [Function.update_self]
        rfl
      · exact Function.update_self _ _ _
  · rw [← Option.some.inj h]
    exact .finish i henters hown fun q h => absurd h (hrun q)

theorem move_lockTest (i : s.Inv) {prio : ℕ} (hpc : s.pc s.k.activePtr = .lockTest q prio)
    (h : s.lockTest q prio u = some s') : Move s (.run u) s' := by
  have henters : (s.pc s.k.activePtr).enters = none := by rw [hpc]; rfl
  have hlocks : (s.pc s.k.activePtr).locks = some q := by rw [hpc]; rfl
  have hown : ∀ q, s.pc s.k.activePtr ≠ .lockOwn q := fun q => by rw [hpc]; exact Pc.noConfusion
  have hrun : ∀ q, Event.run u ≠ .unlock q := fun _ h => Event.noConfusion h
  unfold lockTest at h
  split at h
  · next m hm =>
    split_ifs at h with hlock hboost
    · rw [← Option.some.inj h]
      exact .boost i _ _ henters.symm hown (fun r hr => by rw [hlocks]; exact hr) hrun
    · exact .lockSleep i (bumpIf_k q m prio) (lockOf_bumpIf hm prio) (bumpIf_pc s q m prio) henters
        hlocks hrun h
    · rw [← Option.some.inj h]
      refine .claim q m.ownerTd s.k.activePtr (i.still_same rfl) ?_ (lockOf_setMutex _ _ _)
        (fun v hv => Function.update_of_ne hv _ _) henters ?_ (Or.inl rfl) hrun
      · rw [lockOf_mutex hm]
        simpa using hlock
      · change Pc.enters (Function.update s.pc s.k.activePtr (.lockWoken q) s.k.activePtr) = _
        rw [Function.update_self]
        rfl
  · rw [← Option.some.inj h]
    exact .finish i henters hown fun q h => absurd h (hrun q)

/-- The sections behind the claim, up to the last one. -/
theorem move_lockWoken (x : Exclusive s held) (hpc : s.pc s.k.activePtr = .lockWoken q) :
    Move s (.run u) (s.lockWoken q) := by
  have i := x.inv
  have hlocks : (s.pc s.k.activePtr).locks = some q := by rw [hpc]; rfl
  have hown : ∀ q, s.pc s.k.activePtr ≠ .lockOwn q := fun q => by rw [hpc]; exact Pc.noConfusion
  have hrun : ∀ q, Event.run u ≠ .unlock q := fun _ h => Event.noConfusion h
  have hmutex := x.isMutex _ q hlocks
  have hgoto : ∀ s₁ : SyncData, s₁.k = s.k → s₁.pc = s.pc → s₁.lockOf = s.lockOf →
      Move s (.run u) (s₁.goto (.lockProtect q)) := by
    intro s₁ hk hpc₁ hlock
    refine .goto (p := .lockProtect q) (i.still_same hk) hlock ?_ (by rw [hpc]; rfl) hown
      (fun r hr => Or.inl (by rw [hlocks]; exact hr)) fun q h => absurd h (hrun q)
    change Function.update s₁.pc s₁.k.activePtr _ = _
    rw [hpc₁, hk]
  unfold lockWoken
  split
  · next m hm =>
    simp only
    split_ifs
    · exact .boost i _ _ (by rw [hpc]; rfl) hown (fun r hr => by rw [hlocks]; exact hr) hrun
    · exact hgoto _ rfl rfl (lockOf_bump hm)
    · exact hgoto _ rfl rfl rfl
  · next hno =>
    refine absurd ?_ hmutex
    unfold lockOf
    split
    · next m hm => exact absurd hm (hno m)
    · rfl

/-- The last section of a lock. -/
theorem Move.finishLock {s₁ : SyncData} (i : s.Inv) (hk : s₁.k = s.k)
    (hlock : s₁.lockOf = s.lockOf) (hpc : s₁.pc = s.pc)
    (before : s.pc s.k.activePtr = .lockProtect q ∨ s.pc s.k.activePtr = .lockProtectBump q) :
    Move s (.run u) (s₁.finish .eok) := by
  refine .enter q (i.still_same hk) hlock before ?_ ?_ fun _ h => Event.noConfusion h
  · change Function.update s₁.pc s₁.k.activePtr _ = _
    rw [hpc, hk]
  · change Function.update s₁.result s₁.k.activePtr _ s.k.activePtr = _
    rw [hk, Function.update_self]

theorem move_lockProtect (x : Exclusive s held) (hpc : s.pc s.k.activePtr = .lockProtect q) :
    Move s (.run u) (s.lockProtect q) := by
  have i := x.inv
  have hlocks : (s.pc s.k.activePtr).locks = some q := by rw [hpc]; rfl
  have hown : ∀ q, s.pc s.k.activePtr ≠ .lockOwn q := fun q => by rw [hpc]; exact Pc.noConfusion
  have hmutex := x.isMutex _ q hlocks
  unfold lockProtect
  split
  · next m hm =>
    split_ifs
    · exact .boost i _ _ (by rw [hpc]; rfl) hown (fun r hr => by rw [hlocks]; exact hr)
        fun _ h => Event.noConfusion h
    · exact .finishLock i rfl (lockOf_bump hm) rfl (Or.inl hpc)
    · exact .finishLock i rfl rfl rfl (Or.inl hpc)
  · next hno =>
    refine absurd ?_ hmutex
    unfold lockOf
    split
    · next m hm => exact absurd hm (hno m)
    · rfl

/-- The end of an unlock. -/
theorem unlockTail_frame (s : SyncData) (n : ℕ) :
    KernelData.SameWaits s.k (s.unlockTail n).k ∧ (s.unlockTail n).object = s.object ∧
      (s.unlockTail n).pc = Function.update s.pc s.k.activePtr .idle ∧
      (s.unlockTail n).result s.k.activePtr = .eok := by
  have hsame := KernelData.sameWaits_schedUnboostPriorityInternal (k := s.k) s.k.activePtr n
  unfold unlockTail
  simp only
  split_ifs
  · refine ⟨hsame, rfl, ?_, ?_⟩
    · simp only [finish, hsame.activePtr]
    · simp only [finish, hsame.activePtr, Function.update_self]
  · exact ⟨KernelData.SameWaits.refl _, rfl, rfl, Function.update_self _ _ _⟩

theorem move_unlockTail (i : s.Inv) {n : ℕ} (hpc : s.pc s.k.activePtr = .unlockTail n) (b : ℕ) :
    Move s (.run u) (s.unlockTail b) := by
  obtain ⟨hsame, hobject, hpc', -⟩ := unlockTail_frame s b
  refine .goto (p := .idle) (i.still hsame) (lockOf_congr hobject) hpc' (by rw [hpc]; rfl)
    (fun q => by rw [hpc]; exact Pc.noConfusion) (fun q h => ?_) fun _ h => Event.noConfusion h
  cases h

theorem move_run (x : Exclusive s held) (h : s.run u = some s') : Move s (.run u) s' := by
  have i := x.inv
  have hrun : ∀ q, Event.run u ≠ .unlock q := fun _ h => Event.noConfusion h
  have hgoto : ∀ {p p' : Pc} {q : ℕ}, s.pc s.k.activePtr = p → p'.enters = p.enters →
      (∀ r, p ≠ .lockOwn r) → (∀ r, p'.locks = some r → p.locks = some r) →
      Move s (.run u) ((s.bumpAt q).goto p') := by
    intro p p' q hp henters hown hlocks
    refine .goto (p := p') (i.still_same (bumpAt_k q)) (lockOf_bumpAt s q) ?_ (by rw [hp, henters])
      (fun r => by rw [hp]; exact hown r) (fun r hr => Or.inl (by rw [hp]; exact hlocks r hr))
      fun q h => absurd h (hrun q)
    change Function.update (s.bumpAt q).pc (s.bumpAt q).k.activePtr _ = _
    rw [bumpAt_pc, bumpAt_k]
  unfold run at h
  split at h
  · exact absurd h (by simp)
  · next hpc => exact move_lockSpin i hpc h
  · next q prio count hpc =>
    refine .spinYield i (bumpAt_k q) (lockOf_bumpAt s q) (bumpAt_pc s q) (by rw [hpc]; rfl)
      (by rw [hpc]; rfl) (fun q => by rw [hpc]; exact Pc.noConfusion) hrun h
  · next q hpc =>
    have hhas : s.Has held s.k.activePtr q := Or.inr ⟨by rw [hpc]; rfl, x.active_notMem q⟩
    split at h
    · next m hm =>
      rw [← Option.some.inj h]
      -- the lock is set
      have hlock : m.lock = true := by
        obtain ⟨c, hc, hshows⟩ := x.belongs q
        rw [(hc _).mp hhas] at hshows
        rcases hshows with hl | ⟨hl, -⟩
        · rw [lockOf_mutex hm] at hl
          exact congrArg Prod.fst (Option.some.inj hl)
        · rw [lockOf_mutex hm] at hl
          exact congrArg Prod.fst (Option.some.inj hl)
      refine .own q (i.still_same rfl) hpc ?_ rfl hrun
      refine (lockOf_setMutex s q { m with ownerTd := s.k.activePtr }).trans ?_
      simp only [hlock]
    · next hno =>
      refine absurd ?_ (x.lock_ne hhas)
      unfold lockOf
      split
      · next m hm => exact absurd hm (hno m)
      · rfl
  · next hpc => exact move_lockTest i hpc h
  · next q hpc =>
    split at h
    · next m hm =>
      have hk : (s.bump q m).k = s.k := rfl
      exact .lockSleep i hk (lockOf_bump hm) rfl (by rw [hpc]; rfl) (by rw [hpc]; rfl) hrun h
    · rw [← Option.some.inj h]
      exact .finish i (by rw [hpc]; rfl) (fun q => by rw [hpc]; exact Pc.noConfusion)
        fun q h => absurd h (hrun q)
  · next hpc =>
    rw [← Option.some.inj h]
    exact move_lockWoken x hpc
  · next q hpc =>
    rw [← Option.some.inj h]
    exact hgoto hpc rfl (fun _ => Pc.noConfusion) fun _ h => h
  · next hpc =>
    rw [← Option.some.inj h]
    exact move_lockProtect x hpc
  · next q hpc =>
    rw [← Option.some.inj h]
    exact .finishLock i (bumpAt_k q) (lockOf_bumpAt s q) (bumpAt_pc s q) (Or.inr hpc)
  · next q n hpc =>
    rw [← Option.some.inj h]
    exact hgoto hpc rfl (fun _ => Pc.noConfusion) fun _ h => h
  · next n hpc =>
    rw [← Option.some.inj h]
    exact move_unlockTail i hpc n

/-- An unlock with a waiter. -/
theorem move_handOver (i : s.Inv) {rest : List ℕ} {n : ℕ} (hidle : s.pc s.k.activePtr = .idle)
    (hm : s.object q = .mutex m) (hlock : m.lock = true) (howner : m.ownerTd = s.k.activePtr)
    (hq : s.k.queues q = t :: rest) : Move s (.unlock q) (s.handOver q m t n) := by
  have ht : t ∈ s.k.queues q := by simp [hq]
  have hne : s.k.activePtr ≠ t := fun h => i.wait.notMem i.active q (h ▸ ht)
  have hset : (s.setMutex q { m with ownerTd := t, boosted := 0 }).lockOf =
      Function.update s.lockOf q (some (true, t)) := by
    refine (lockOf_setMutex s q { m with ownerTd := t, boosted := 0 }).trans ?_
    simp only [hlock]
  -- what the three ends of the section have in common
  have hhand : ∀ (s' : SyncData) (p : Pc), KernelData.SameWaits (s.k.dequeueReady q t) s'.k →
      s'.lockOf = Function.update s.lockOf q (some (true, t)) →
      s'.pc = Function.update s.pc s.k.activePtr p → p.locks = none → p ≠ .idle →
      Move s (.unlock q) s' := by
    intro s' p hsame hl hpc hp hpidle
    have hself : s'.pc s.k.activePtr = p := by rw [hpc, Function.update_self]
    refine .hand q t ⟨(i.wait.dequeueReady ht).congr hsame, ?_⟩ rfl hidle ?_ hl ht
      (fun v hv => ?_) (fun r v => ?_) (fun v hv => by rw [hpc, Function.update_of_ne hv])
      (by rw [hself, hp]) (fun h => hpidle (hself.symm.trans h.1))
    · rw [hsame.activePtr, hsame.state, KernelData.dequeueReady_activePtr,
        KernelData.dequeueReady_td_of_ne q hne]
      exact i.active
    · rw [lockOf_mutex hm, hlock, howner]
    · rw [hsame.state, KernelData.dequeueReady_td_of_ne q hv]
    · rw [hsame.queues, KernelData.dequeueReady_queues]
      by_cases hr : r = q
      · subst hr
        rw [Function.update_self, (i.wait.nodup r).mem_erase_iff]
        simp [and_comm]
      · rw [Function.update_of_ne hr]
        simp [hr]
  have hrefl := KernelData.SameWaits.refl (s.k.dequeueReady q t)
  unfold handOver
  simp only
  split_ifs
  · have hsame := KernelData.sameWaits_schedBoostPriorityInternal (k := s.k.dequeueReady q t) t
      m.priorityCeiling
    refine hhand _ (.unlockBump q n) hsame hset ?_ rfl Pc.noConfusion
    change Function.update s.pc (KernelData.schedBoostPriorityInternal _ t _).activePtr _ = _
    rw [hsame.activePtr]
    rfl
  · refine hhand _ (.unlockTail n) hrefl ?_ rfl rfl Pc.noConfusion
    have hself : SyncData.object { s.setMutex q { m with ownerTd := t, boosted := 0 } with
        k := s.k.dequeueReady q t } q = .mutex { m with ownerTd := t, boosted := 0 } :=
      Function.update_self _ _ _
    exact (lockOf_bump hself).trans hset
  · exact hhand _ (.unlockTail n) hrefl hset rfl rfl Pc.noConfusion

theorem move_mutexUnlock (i : s.Inv) (hidle : s.pc s.k.activePtr = .idle) (q : ℕ) :
    Move s (.unlock q) (s.mutexUnlock q) := by
  have hfinish : Move s (.unlock q) (s.finish .einval) :=
    .finish i (by rw [hidle]; rfl) (fun q => by rw [hidle]; exact Pc.noConfusion) fun _ _ => rfl
  unfold mutexUnlock
  split
  · next m hm =>
    by_cases hrefused : m.lock = false ∨ m.ownerTd ≠ s.k.activePtr
    · rw [if_pos hrefused]
      exact hfinish
    rw [if_neg hrefused]
    rw [not_or, Bool.not_eq_false, not_not] at hrefused
    obtain ⟨hlock, howner⟩ := hrefused
    have hfree : Move s (.unlock q) (SyncData.unlockTail
        (s.setMutex q { m with lock := false, ownerTd := 0, boosted := 0 }) m.boosted) := by
      obtain ⟨hsame, hobject, hpc, hresult⟩ := unlockTail_frame
        (s.setMutex q { m with lock := false, ownerTd := 0, boosted := 0 }) m.boosted
      refine .free q (i.still hsame) rfl hidle ?_ ?_ (fun v hv => ?_) ?_ fun h => ?_
      · rw [lockOf_mutex hm, hlock, howner]
      · exact (lockOf_congr hobject).trans (lockOf_setMutex _ _ _)
      · rw [hpc]
        exact Function.update_of_ne hv _ _
      · refine (congrArg Pc.locks (congrFun hpc _)).trans ?_
        exact congrArg Pc.locks (Function.update_self s.k.activePtr Pc.idle s.pc)
      · exact Status.noConfusion (hresult.symm.trans h.2)
    simp only
    split
    · exact hfree
    · split
      · exact hfree
      · next t rest hq => exact move_handOver i hidle hm hlock howner hq
  · exact hfinish

theorem lockOf_taskQueue {b : Bool} (h : s.object q = .taskQueue b) : s.lockOf q = none := by
  unfold lockOf
  rw [h]

/-- The active task goes to wait on a task queue. -/
theorem move_taskqSuspend (i : s.Inv) (hidle : s.pc s.k.activePtr = .idle)
    (h : s.taskqSuspend q u = some s') : Move s (.suspend q u) s' := by
  have henters : (s.pc s.k.activePtr).enters = none := by rw [hidle]; rfl
  have hown : ∀ q, s.pc s.k.activePtr ≠ .lockOwn q := fun q => by rw [hidle]; exact Pc.noConfusion
  unfold taskqSuspend at h
  split at h
  · next b hb =>
    obtain ⟨hu, rfl⟩ := switchTo_eq h
    have hwait : WaitInv (s.k.blockOn b s.k.activePtr .taskQueueBlocked q) :=
      i.wait.blockOn i.active rfl q b
    refine .goto ⟨⟨hwait.dispatch u, hu⟩, fun h0 => ?_, fun r hr v => ?_, fun v r hr hv => ?_⟩ rfl
      rfl henters.symm hown (fun r hr => ?_) fun _ h => Event.noConfusion h
    · have hne : 0 ≠ s.k.activePtr := by
        intro hz
        have hactive := i.active
        rw [← hz, h0] at hactive
        cases hactive
      exact (congrArg Td.state (KernelData.blockOn_td_of_ne b _ q hne)).trans h0
    · have hrq : r ≠ q := by
        rintro rfl
        exact hr (lockOf_taskQueue hb)
      change v ∈ (s.k.blockOn b s.k.activePtr .taskQueueBlocked q).queues r ↔ _
      rw [KernelData.blockOn_queues, Function.update_of_ne hrq]
    · have hne : v ≠ s.k.activePtr := by
        rintro rfl
        exact i.wait.notMem i.active r hv
      exact congrArg Td.state (KernelData.blockOn_td_of_ne b _ q hne)
    · cases hr
  · rw [← Option.some.inj h]
    exact .finish i henters hown fun _ h => Event.noConfusion h

theorem move_taskqResume (i : s.Inv) (q : ℕ) (allTasks : Bool) :
    Move s (.resume q allTasks) (s.taskqResume q allTasks).2 := by
  have hnone : Move s (.resume q allTasks) s :=
    .same (i.still_same rfl) rfl rfl fun _ h => Event.noConfusion h
  unfold taskqResume
  split
  · next b hb =>
    split
    · exact hnone
    · next t l hq =>
      simp only
      obtain ⟨l', rest, hl', hsplit⟩ : ∃ l' rest,
          (if allTasks = true then t :: l else [t]) = l' ∧ s.k.queues q = l' ++ rest := by
        cases allTasks
        · exact ⟨[t], l, rfl, hq⟩
        · exact ⟨t :: l, [], rfl, by rw [hq, List.append_nil]⟩
      rw [hl']
      obtain ⟨hwait, hqueues, hptr, htd⟩ := resumeAll_spec l' i.wait hsplit
      have hmem : ∀ u ∈ l', u ∈ s.k.queues q := by
        intro u hu
        rw [hsplit]
        exact List.mem_append_left _ hu
      have hother : ∀ u, u ∉ s.k.queues q → (resumeAll q l' s.k).td u = s.k.td u :=
        fun u hu => htd u fun h => hu (hmem u h)
      refine .same ⟨⟨hwait, ?_⟩, fun h0 => ?_, fun r hr v => ?_, fun v r hr hv => ?_⟩ rfl rfl
        fun _ h => Event.noConfusion h
      · rw [hptr, hother _ (i.wait.notMem i.active q)]
        exact i.active
      · rw [hother 0 ?_]
        · exact h0
        · intro hz
          have hwaits := ((i.wait.mem 0 q).mp hz).1
          rw [h0] at hwaits
          cases hwaits
      · have hrq : r ≠ q := by
          rintro rfl
          exact hr (lockOf_taskQueue hb)
        simp only [hqueues, Function.update_of_ne hrq]
      · rw [hother v fun hvq => hr ?_]
        rw [i.placed.unique hv hvq]
        exact lockOf_taskQueue hb
  · exact hnone

theorem move_taskSetPriority (i : s.Inv) (t p : ℕ) :
    Move s (.setPriority t p) (s.taskSetPriority t p).2.2 := by
  have hnone : Move s (.setPriority t p) s :=
    .same (i.still_same rfl) rfl rfl fun _ h => Event.noConfusion h
  have hsame := KernelData.sameWaits_setHomePriority (k := s.k) t p
  unfold taskSetPriority
  split_ifs with hp htask hre
  · exact hnone
  · exact hnone
  · obtain ⟨hstate, hobject⟩ := requeues_iff.mp hre
    have ht : t ∈ (s.k.setHomePriority t p).queues (s.k.td t).info := by
      rw [hsame.queues, i.wait.mem, hstate]
      exact ⟨rfl, rfl⟩
    have hinv : Inv { s with k := s.k.setHomePriority t p } := i.congr hsame
    refine .same ⟨⟨(i.wait.congr hsame).requeue ht, hinv.active⟩, fun h0 => ?_, fun r hr v => ?_,
      fun v r hr _ => hsame.state v⟩ rfl rfl fun _ h => Event.noConfusion h
    · exact (hsame.state 0).trans h0
    · have hrq : r ≠ (s.k.td t).info := by
        rintro rfl
        exact hr (lockOf_taskQueue hobject)
      simp only [KernelData.schedInsertPriorityqInternal, KernelData.queueRemove,
        Function.update_of_ne hrq, hsame.queues]
  · exact .same (i.still hsame) rfl rfl fun _ h => Event.noConfusion h

/-- Every event is a move. -/
theorem move_exec (x : Exclusive s held) (h : s.exec e = some s') : Move s e s' := by
  have i := x.inv
  cases e with
  | dispatch u =>
    simp only [exec] at h
    split_ifs at h
    have hsame : Still s s := i.still_same rfl
    have hstill := hsame.switchTo h
    obtain ⟨-, rfl⟩ := switchTo_eq h
    exact .same hstill rfl rfl fun _ h => Event.noConfusion h
  | run u => exact move_run x h
  | lock q =>
    simp only [exec] at h
    split_ifs at h with hidle
    exact Option.some.inj h ▸ move_mutexLock i hidle q
  | tryLock q =>
    simp only [exec] at h
    split_ifs at h with hidle
    exact Option.some.inj h ▸ move_mutexTryLock i hidle q
  | unlock q =>
    simp only [exec] at h
    split_ifs at h with hidle
    exact Option.some.inj h ▸ move_mutexUnlock i hidle q
  | suspend q u =>
    simp only [exec] at h
    split_ifs at h with hidle
    exact move_taskqSuspend i hidle h
  | resume q allTasks =>
    simp only [exec] at h
    split_ifs at h
    exact Option.some.inj h ▸ move_taskqResume i q allTasks
  | setPriority t p =>
    simp only [exec] at h
    split_ifs at h
    exact Option.some.inj h ▸ move_taskSetPriority i t p

end Moves

/-! ## Runs -/

/-- A step, with the tasks that hold the mutexes. -/
def LockStep (x y : SyncData × Holders) : Prop :=
  ∃ e, x.1.exec e = some y.1 ∧ y.2 = heldAfter x.2 x.1 e y.1

/-- No task is in a call or waits, and no mutex is locked. -/
structure Unused (s : SyncData) : Prop where
  inv : s.Inv
  null : (s.k.td 0).state = .blocked
  idle : ∀ t, s.pc t = .idle
  unlocked : ∀ q m, s.object q = .mutex m → m.lock = false ∧ m.ownerTd = 0
  empty : ∀ q, s.k.queues q = []

theorem Unused.exclusive (h : s.Unused) : Exclusive s fun _ _ => False where
  inv := h.inv
  null := h.null
  isMutex t q hl := by
    rw [h.idle t] at hl
    cases hl
  waits t q _ ht := by
    rw [h.empty q] at ht
    exact absurd ht List.not_mem_nil
  apart _ _ hf := hf.elim
  belongs q := by
    refine ⟨none, fun t => iff_of_false ?_ (by simp), ?_⟩
    · rintro (hf | ⟨henters, -⟩)
      · exact hf
      · rw [h.idle t] at henters
        cases henters
    · cases hq : s.object q with
      | mutex m =>
        obtain ⟨hlock, howner⟩ := h.unlocked q m hq
        exact Or.inr (by rw [lockOf_mutex hq, hlock, howner])
      | invalid => exact Or.inl (by unfold lockOf; rw [hq])
      | taskQueue b => exact Or.inl (lockOf_taskQueue hq)

theorem exclusive_run {x y : SyncData × Holders} (hrun : Relation.ReflTransGen LockStep x y)
    (h : Exclusive x.1 x.2) : Exclusive y.1 y.2 := by
  induction hrun with
  | refl => exact h
  | tail _ hstep ih =>
    obtain ⟨e, hexec, hheld⟩ := hstep
    rw [hheld]
    exact ih.move (move_exec ih hexec)

theorem handOver_pc_ne_idle (s : SyncData) (q t n : ℕ) (m : Mutex) :
    (s.handOver q m t n).pc s.k.activePtr ≠ .idle := by
  have hsame := KernelData.sameWaits_schedBoostPriorityInternal (k := s.k.dequeueReady q t) t
    m.priorityCeiling
  unfold handOver
  simp only
  split_ifs
  · change Function.update s.pc (KernelData.schedBoostPriorityInternal _ t _).activePtr _ _ ≠ _
    rw [hsame.activePtr, KernelData.dequeueReady_activePtr, Function.update_self]
    exact Pc.noConfusion
  · change Function.update s.pc s.k.activePtr _ _ ≠ _
    rw [Function.update_self]
    exact Pc.noConfusion
  · change Function.update s.pc s.k.activePtr _ _ ≠ _
    rw [Function.update_self]
    exact Pc.noConfusion

/-- An unlock of the owner is not refused. -/
theorem mutexUnlock_accepted (hm : s.object q = .mutex m) (hlock : m.lock = true)
    (howner : m.ownerTd = s.k.activePtr) : (s.mutexUnlock q).result s.k.activePtr ≠ .einval ∨
      (s.mutexUnlock q).pc s.k.activePtr ≠ .idle := by
  have hfree : ∀ n, (SyncData.unlockTail
      (s.setMutex q { m with lock := false, ownerTd := 0, boosted := 0 }) n).result
        s.k.activePtr ≠ .einval := fun n h =>
    Status.noConfusion ((unlockTail_frame _ n).2.2.2.symm.trans h)
  unfold mutexUnlock
  simp only [hm, hlock, howner, ne_eq, not_true_eq_false, or_false, Bool.true_eq_false, if_false]
  split
  · exact Or.inl (hfree _)
  · split
    · exact Or.inl (hfree _)
    · exact Or.inr (handOver_pc_ne_idle s q _ _ m)

/-- Only a task that holds the mutex can unlock it. -/
theorem Exclusive.releases_iff (x : Exclusive s held) (hm : s.object q = .mutex m)
    (hidle : s.pc s.k.activePtr = .idle) :
    Releases s (.unlock q) (s.mutexUnlock q) q s.k.activePtr ↔ held q s.k.activePtr := by
  constructor
  · rintro ⟨-, -, haccepted⟩
    have hshown : m.lock = true ∧ m.ownerTd = s.k.activePtr := by
      by_contra hnot
      have hrefused : m.lock = false ∨ m.ownerTd ≠ s.k.activePtr := by
        rwa [not_and_or, Bool.not_eq_true] at hnot
      apply haccepted
      unfold mutexUnlock
      simp only [hm]
      rw [if_pos hrefused]
      exact ⟨Function.update_self _ _ _, Function.update_self _ _ _⟩
    have hlock : s.lockOf q = some (true, s.k.activePtr) := by
      rw [lockOf_mutex hm, hshown.1, hshown.2]
    rcases (x.has_iff_active hlock).mpr rfl with hheld | ⟨henters, -⟩
    · exact hheld
    · rw [hidle] at henters
      cases henters
  · intro hheld
    have hlock := x.lockOf_held hheld
    rw [lockOf_mutex hm] at hlock
    have hfields := Prod.mk.inj (Option.some.inj hlock)
    refine ⟨rfl, rfl, fun h => ?_⟩
    rcases mutexUnlock_accepted hm hfields.1 hfields.2 with hresult | hpc
    · exact hresult h.2
    · exact hpc h.1

theorem lockStep_execAll {l : List Event} : ∀ {s s' : SyncData} {held : Holders},
    s.execAll l = some s' → ∃ held', Relation.ReflTransGen LockStep (s, held) (s', held') := by
  induction l with
  | nil =>
    intro s s' held h
    rw [← Option.some.inj h]
    exact ⟨held, .refl⟩
  | cons e l ih =>
    intro s s' held h
    obtain ⟨s₁, h₁, h⟩ := Option.bind_eq_some_iff.mp h
    obtain ⟨held', hrun⟩ : ∃ held', Relation.ReflTransGen LockStep
        (s₁, heldAfter held s e s₁) (s', held') := ih h
    exact ⟨held', .head ⟨e, h₁, rfl⟩ hrun⟩

theorem bootSync_unused : bootSync.Unused where
  inv := bootSync_inv
  null := rfl
  idle _ := rfl
  unlocked q m h := by
    have hq : (if q = 0x100 then .mutex ⟨.priorityQueueing, true, false, 0, 0, false, 0, 0⟩
        else if q = 0x200 then WaitObject.taskQueue true else .invalid) = .mutex m := h
    split_ifs at hq
    rw [← WaitObject.mutex.inj hq]
    exact ⟨rfl, rfl⟩
  empty _ := rfl

end SyncData
end Mqx.Sync
