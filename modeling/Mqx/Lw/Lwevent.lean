import Mqx.Library.BitMask
import Mqx.Lw.Objects

/-!
# Lightweight events

A waiting task keeps the bits it wants in `LWEVENT_BITS`; `_lwevent_set` walks once along
the queue and releases the tasks whose condition holds, while the bits that are cleared
automatically are taken away from the ones behind. To say that a setting of such a bit is
used once, the system numbers the calls of `_lwevent_set` and records which setting of
which bit every released task has used up.
-/

namespace Mqx.Lw

open Mqx.Sched

/-- Does the task get what it waits for? -/
def Satisfied (all : Bool) (wanted bits : BitVec 32) : Prop :=
  if all then wanted &&& bits = wanted else wanted &&& bits ≠ 0

instance (all : Bool) (wanted bits : BitVec 32) : Decidable (Satisfied all wanted bits) :=
  inferInstanceAs (Decidable (ite _ _ _))

/-- What the loop of `_lwevent_set` leaves: the kernel, the bits that are still set, and for
each released task the bits that were cleared on its behalf. -/
structure Scan where
  k : KernelData
  bits : BitVec 32
  cleared : List (BitVec 32)

/-- The loop of `_lwevent_set` over the waiting tasks. -/
def lweventScan (q : ℕ) (auto : BitVec 32) : List ℕ → KernelData → BitVec 32 → Scan
  | [], k, bits => ⟨k, bits, []⟩
  | t :: l, k, bits =>
    if Satisfied (k.td t).allBitsWanted (k.td t).lweventBits bits then
      let k := k.activate q t
      let got := (k.td t).lweventBits &&& bits
      let r := lweventScan q auto l (k.setTd t { k.td t with lweventBits := got })
        (bits &&& ~~~(auto &&& got))
      ⟨r.k, r.bits, (auto &&& got) :: r.cleared⟩
    else lweventScan q auto l k bits

namespace LwData

variable (s : LwData)

/-- The loop, from the call of `_lwevent_set`. -/
def lweventSetScan (event : ℕ) (bitMask : BitVec 32) : Scan :=
  lweventScan (waitingTasks event) (s.lwevent event).auto (s.k.queues (waitingTasks event)) s.k
    ((s.lwevent event).value ||| bitMask)

/-- `_lwevent_set`. -/
def lweventSet (event : ℕ) (bitMask : BitVec 32) : Status × LwData :=
  if (s.lwevent event).valid ≠ lweventValid then (.lweventInvalid, s)
  else
    let r := s.lweventSetScan event bitMask
    (.ok, { s with k := r.k }.setLwevent event { s.lwevent event with value := r.bits })

/-- `_lwevent_clear`. -/
def lweventClear (event : ℕ) (bitMask : BitVec 32) : Status × LwData :=
  if (s.lwevent event).valid ≠ lweventValid then (.lweventInvalid, s)
  else
    (.ok, s.setLwevent event
      { s.lwevent event with value := (s.lwevent event).value &&& ~~~bitMask })

/-- `_lwevent_set_auto_clear`. -/
def lweventSetAutoClear (event : ℕ) (autoMask : BitVec 32) : Status × LwData :=
  if (s.lwevent event).valid ≠ lweventValid then (.lweventInvalid, s)
  else (.ok, s.setLwevent event { s.lwevent event with auto := autoMask })

/-- `_lwevent_wait_internal`: the active task has to wait. -/
def lweventBlock (fifo : Bool) (event : ℕ) (bitMask : BitVec 32) (all : Bool)
    (timeout : Option ℕ) : KernelData :=
  let t := s.k.activePtr
  let k := s.k.setTd t { s.k.td t with lweventBits := bitMask, allBitsWanted := all }
  k.waitFor fifo t .lweventBlocked (waitingTasks event) timeout

/-- `_lwevent_wait_internal`, up to the call of the scheduler. Without a result the task has
blocked. -/
def lweventWait (fifo : Bool) (event : ℕ) (bitMask : BitVec 32) (all : Bool)
    (timeout : Option ℕ) : Option Status × LwData :=
  let t := s.k.activePtr
  let o := s.lwevent event
  if o.valid ≠ lweventValid then (some .lweventInvalid, s)
  else if Satisfied all bitMask o.value then
    (some .ok,
      { s with k := s.k.setTd t { s.k.td t with lweventBits := o.value &&& bitMask } }.setLwevent
        event { o with value := o.value &&& ~~~(o.auto &&& bitMask) })
  else (none, { s with k := s.lweventBlock fifo event bitMask all timeout })

/-- What a call returns after its task has been made ready. -/
def lweventResult (event : ℕ) (timed : Bool) : Status :=
  if (s.lwevent event).valid = 0 then .lweventInvalid
  else if timed ∧ (s.k.td s.k.activePtr).info ≠ 0 then .lweventWaitTimeout
  else .ok

end LwData

/-- The kernel and what has happened to the bits: how often `_lwevent_set` was called, which
call set a bit of an event last, and which settings of which bits have been used up. -/
structure EventSys where
  lw : LwData
  settings : ℕ
  lastSet : ℕ → ℕ → ℕ
  consumed : ℕ → List (ℕ × ℕ)

/-- The numbers of the bits of a mask. -/
def bitsOf (m : BitVec 32) : List ℕ := (List.range 32).filter fun b => m.getLsbD b

/-- A task has used up the last settings of these bits. -/
def consume (lastSet : ℕ → ℕ) (log : List (ℕ × ℕ)) (m : BitVec 32) : List (ℕ × ℕ) :=
  log ++ (bitsOf m).map fun b => (b, lastSet b)

namespace EventSys

variable (c : EventSys)

def set (event : ℕ) (bitMask : BitVec 32) : EventSys :=
  let r := c.lw.lweventSet event bitMask
  if r.1 = .ok then
    let lastSet := fun b => if bitMask.getLsbD b then c.settings + 1 else c.lastSet event b
    { lw := r.2
      settings := c.settings + 1
      lastSet := Function.update c.lastSet event lastSet
      consumed := Function.update c.consumed event
        ((c.lw.lweventSetScan event bitMask).cleared.foldl (consume lastSet) (c.consumed event)) }
  else c

def clear (event : ℕ) (bitMask : BitVec 32) : EventSys :=
  { c with lw := (c.lw.lweventClear event bitMask).2 }

def setAutoClear (event : ℕ) (autoMask : BitVec 32) : EventSys :=
  { c with lw := (c.lw.lweventSetAutoClear event autoMask).2 }

def wait (fifo : Bool) (event : ℕ) (bitMask : BitVec 32) (all : Bool) (timeout : Option ℕ) :
    EventSys :=
  let r := c.lw.lweventWait fifo event bitMask all timeout
  if r.1 = some .ok then
    let o := c.lw.lwevent event
    { c with
      lw := r.2
      consumed := Function.update c.consumed event
        (consume (c.lastSet event) (c.consumed event) (o.auto &&& (o.value &&& bitMask))) }
  else { c with lw := r.2 }

def tick (hw : ℕ) : EventSys := { c with lw := { c.lw with k := c.lw.k.timeNotifyKernel hw } }

def dispatch (u : ℕ) : EventSys := { c with lw := { c.lw with k := c.lw.k.dispatch u } }

end EventSys

/-- The calls on events, by tasks and interrupt handlers, and the ticks, in any order. -/
inductive EventStep (fifo : Bool) : EventSys → EventSys → Prop
  | set {c : EventSys} (event : ℕ) (bitMask : BitVec 32) : EventStep fifo c (c.set event bitMask)
  | clear {c : EventSys} (event : ℕ) (bitMask : BitVec 32) :
      EventStep fifo c (c.clear event bitMask)
  | setAutoClear {c : EventSys} (event : ℕ) (autoMask : BitVec 32) :
      EventStep fifo c (c.setAutoClear event autoMask)
  | wait {c : EventSys} (event : ℕ) (bitMask : BitVec 32) (all : Bool) (timeout : Option ℕ) :
      (c.lw.lweventWait fifo event bitMask all timeout).1 ≠ none →
      EventStep fifo c (c.wait fifo event bitMask all timeout)
  | block {c : EventSys} (event : ℕ) (bitMask : BitVec 32) (all : Bool) (timeout : Option ℕ)
      (u : ℕ) : (c.lw.lweventWait fifo event bitMask all timeout).1 = none →
      ((c.wait fifo event bitMask all timeout).lw.k.td u).state = .ready →
      EventStep fifo c ((c.wait fifo event bitMask all timeout).dispatch u)
  | tick {c : EventSys} (hw : ℕ) : EventStep fifo c (c.tick hw)
  | dispatch {c : EventSys} (u : ℕ) : (c.lw.k.td u).state = .ready →
      EventStep fifo c (c.dispatch u)

/-! ## Bits -/

/-- Fewer bits satisfy fewer tasks. -/
theorem Satisfied.mono {all : Bool} {wanted bits bits' : BitVec 32}
    (hsub : ∀ i, bits'.getLsbD i = true → bits.getLsbD i = true)
    (h : Satisfied all wanted bits') : Satisfied all wanted bits := by
  unfold Satisfied at *
  cases all with
  | true =>
    simp only [if_true, BitVec.and_eq_left_iff] at *
    exact fun i hi => hsub i (h i hi)
  | false =>
    simp only [Bool.false_eq_true, if_false, BitVec.and_ne_zero_iff] at *
    obtain ⟨i, hi, hb⟩ := h
    exact ⟨i, hi, hsub i hb⟩

/-! ## Settings are used once -/

/-- No setting of a bit is in the record twice, and the last setting of a bit that is still
set is not in it. -/
structure LogInv (lastSet : ℕ → ℕ) (log : List (ℕ × ℕ)) (bits : BitVec 32) : Prop where
  nodup : log.Nodup
  le : ∀ p ∈ log, p.2 ≤ lastSet p.1
  unused : ∀ b, bits.getLsbD b = true → (b, lastSet b) ∉ log

namespace LogInv

variable {lastSet : ℕ → ℕ} {log : List (ℕ × ℕ)} {bits bits' m : BitVec 32}

theorem mono (h : LogInv lastSet log bits)
    (hsub : ∀ i, bits'.getLsbD i = true → bits.getLsbD i = true) : LogInv lastSet log bits' :=
  ⟨h.nodup, h.le, fun b hb => h.unused b (hsub b hb)⟩

/-- Bits that are set are used up. -/
theorem consume (h : LogInv lastSet log bits)
    (hm : ∀ i, m.getLsbD i = true → bits.getLsbD i = true) :
    LogInv lastSet (consume lastSet log m) (bits &&& ~~~m) := by
  have hnew : ∀ p, p ∈ (bitsOf m).map (fun b => (b, lastSet b)) ↔
      m.getLsbD p.1 = true ∧ p.2 = lastSet p.1 := by
    rintro ⟨b, i⟩
    simp only [bitsOf, List.mem_map, List.mem_filter, List.mem_range, Prod.mk.injEq]
    constructor
    · rintro ⟨b', ⟨-, hb⟩, rfl, rfl⟩
      exact ⟨hb, rfl⟩
    · rintro ⟨hb, rfl⟩
      exact ⟨b, ⟨BitVec.lt_of_getLsbD hb, hb⟩, rfl, rfl⟩
  constructor
  · refine List.nodup_append'.mpr ⟨h.nodup, ?_, ?_⟩
    · refine (List.nodup_range.filter _).map ?_
      intro b b' heq
      exact congrArg Prod.fst heq
    · intro p hp hp'
      obtain ⟨hb, hi⟩ := (hnew p).mp hp'
      exact h.unused p.1 (hm _ hb) (hi ▸ hp)
  · intro p hp
    rcases List.mem_append.mp hp with hp | hp
    · exact h.le p hp
    · exact ((hnew p).mp hp).2.le
  · intro b hb hmem
    obtain ⟨hbits, hbm⟩ := BitVec.getLsbD_and_not hb
    rcases List.mem_append.mp hmem with hp | hp
    · exact h.unused b hbits hp
    · rw [((hnew _).mp hp).1] at hbm
      exact Bool.noConfusion hbm

/-- Bits are set by a new call. -/
theorem set (h : LogInv lastSet log bits) {id : ℕ} (hid : ∀ b, lastSet b < id) :
    LogInv (fun b => if m.getLsbD b then id else lastSet b) log (bits ||| m) := by
  constructor
  · exact h.nodup
  · intro p hp
    have hle := h.le p hp
    have hlt := hid p.1
    split_ifs <;> omega
  · intro b hb hmem
    by_cases hbm : m.getLsbD b = true
    · rw [if_pos hbm] at hmem
      have hle := h.le _ hmem
      have hlt := hid b
      simp only at hle
      omega
    · rw [if_neg hbm] at hmem
      rw [BitVec.getLsbD_or] at hb
      exact h.unused b (by simpa [hbm] using hb) hmem

end LogInv

/-! ## The loop of `_lwevent_set` -/

/-- What the loop does to the tasks it passes. -/
structure ScanSpec (q : ℕ) (l : List ℕ) (k : KernelData) (bits : BitVec 32) (r : Scan) : Prop where
  running : Running r.k
  bits : ∀ i, r.bits.getLsbD i = true → bits.getLsbD i = true
  td : ∀ t, t ∉ l → r.k.td t = k.td t
  kept : ∀ t ∈ r.k.queues q, r.k.td t = k.td t
  left : ∀ t ∈ l, t ∈ r.k.queues q →
    ¬Satisfied (k.td t).allBitsWanted (k.td t).lweventBits r.bits
  queue : (r.k.queues q).Sublist (k.queues q)
  others : ∀ q', q' ≠ q → r.k.queues q' = k.queues q'

theorem lweventScan_spec (q : ℕ) (auto : BitVec 32) (l : List ℕ) :
    ∀ {k : KernelData} (bits : BitVec 32), Running k → l.Nodup → (∀ t ∈ l, t ∈ k.queues q) →
      ScanSpec q l k bits (lweventScan q auto l k bits) := by
  induction l with
  | nil =>
    intro k bits r _ _
    exact ⟨r, fun _ h => h, fun _ _ => rfl, fun _ _ => rfl, by simp, List.Sublist.refl _,
      fun _ _ => rfl⟩
  | cons t l ih =>
    intro k bits r hnodup hmem
    obtain ⟨htl, hl⟩ := List.nodup_cons.mp hnodup
    have ht : t ∈ k.queues q := hmem t List.mem_cons_self
    have hlq : ∀ u ∈ l, u ∈ k.queues q := fun u hu => hmem u (List.mem_cons_of_mem _ hu)
    have hne : ∀ u ∈ l, u ≠ t := fun u hu h => htl (h ▸ hu)
    rw [lweventScan]
    split_ifs with hsat
    · -- the rest of the loop runs on the kernel with the task released
      obtain ⟨k', hk'⟩ : ∃ k', (k.activate q t).setTd t { (k.activate q t).td t with
          lweventBits := ((k.activate q t).td t).lweventBits &&& bits } = k' := ⟨_, rfl⟩
      have hr' : Running k' := hk' ▸ (r.activate ht).setTd rfl rfl rfl rfl rfl
      have htd' : ∀ u, u ≠ t → k'.td u = k.td u := by
        intro u hu
        rw [← hk', KernelData.setTd_td_of_ne _ _ hu, KernelData.activate_td_of_ne _ _ hu]
      have hq' : k'.queues = Function.update k.queues q ((k.queues q).erase t) := by
        rw [← hk', KernelData.setTd_queues, KernelData.activate_queues]
      have hqt : t ∉ k'.queues q := by
        rw [hq', Function.update_self, (r.inv.wait.nodup q).mem_erase_iff]
        simp
      have hlq' : ∀ u ∈ l, u ∈ k'.queues q := by
        intro u hu
        rw [hq', Function.update_self, List.mem_erase_of_ne (hne u hu)]
        exact hlq u hu
      have hspec := ih (bits &&& ~~~(auto &&& (((k.activate q t).td t).lweventBits &&& bits)))
        hr' hl hlq'
      simp only [hk']
      have hleft : ∀ u ∈ (lweventScan q auto l k' (bits &&& ~~~(auto &&&
          (((k.activate q t).td t).lweventBits &&& bits)))).k.queues q, u ≠ t := by
        rintro u hu rfl
        exact hqt (hspec.queue.subset hu)
      constructor
      · exact hspec.running
      · exact fun i hi => (BitVec.getLsbD_and_not (hspec.bits i hi)).1
      · intro u hu
        have hut : u ≠ t := fun h => hu (h ▸ List.mem_cons_self)
        rw [hspec.td u fun h => hu (List.mem_cons_of_mem _ h), htd' u hut]
      · intro u hu
        rw [hspec.kept u hu, htd' u (hleft u hu)]
      · intro u hu huq
        rw [← htd' u (hleft u huq)]
        rcases List.mem_cons.mp hu with rfl | hu
        · exact absurd rfl (hleft u huq)
        · exact hspec.left u hu huq
      · refine hspec.queue.trans ?_
        rw [hq', Function.update_self]
        exact List.erase_sublist
      · intro q' hne'
        rw [hspec.others q' hne', hq', Function.update_of_ne hne']
    · have hspec := ih bits r hl hlq
      constructor
      · exact hspec.running
      · exact hspec.bits
      · exact fun u hu => hspec.td u fun h => hu (List.mem_cons_of_mem _ h)
      · exact hspec.kept
      · intro u hu huq
        rcases List.mem_cons.mp hu with rfl | hu
        · exact fun h => hsat (h.mono hspec.bits)
        · exact hspec.left u hu huq
      · exact hspec.queue
      · exact hspec.others

/-- The tasks that the loop releases use up different settings. -/
theorem lweventScan_log (q : ℕ) (auto : BitVec 32) {lastSet : ℕ → ℕ} (l : List ℕ) :
    ∀ {k : KernelData} {bits : BitVec 32} {log : List (ℕ × ℕ)}, LogInv lastSet log bits →
      LogInv lastSet ((lweventScan q auto l k bits).cleared.foldl (consume lastSet) log)
        (lweventScan q auto l k bits).bits := by
  induction l with
  | nil => exact fun h => h
  | cons t l ih =>
    intro k bits log h
    rw [lweventScan]
    split_ifs with hsat
    · apply ih
      apply h.consume
      intro i hi
      simp only [BitVec.getLsbD_and, Bool.and_eq_true] at hi
      exact hi.2.2
    · exact ih h

/-! ## The invariant -/

/-- No waiting task could be released, and no setting of a bit has been used twice. -/
structure EventInv (event : ℕ) (c : EventSys) : Prop where
  running : Running c.lw.k
  unsatisfied : ∀ t ∈ c.lw.k.queues (waitingTasks event),
    ¬Satisfied (c.lw.k.td t).allBitsWanted (c.lw.k.td t).lweventBits (c.lw.lwevent event).value
  log : LogInv (c.lastSet event) (c.consumed event) (c.lw.lwevent event).value
  lastSet_le : ∀ b, c.lastSet event b ≤ c.settings

namespace EventInv

variable {event : ℕ} {c c' : EventSys}

/-- A step that only takes tasks off the queue and bits away. -/
theorem of_sub (i : EventInv event c) (hr : Running c'.lw.k)
    (hq : ∀ t ∈ c'.lw.k.queues (waitingTasks event), t ∈ c.lw.k.queues (waitingTasks event) ∧
      (c'.lw.k.td t).allBitsWanted = (c.lw.k.td t).allBitsWanted ∧
      (c'.lw.k.td t).lweventBits = (c.lw.k.td t).lweventBits)
    (hv : ∀ i, (c'.lw.lwevent event).value.getLsbD i = true →
      (c.lw.lwevent event).value.getLsbD i = true)
    (hlog : LogInv (c'.lastSet event) (c'.consumed event) (c'.lw.lwevent event).value)
    (hset : ∀ b, c'.lastSet event b ≤ c'.settings) : EventInv event c' := by
  refine ⟨hr, ?_, hlog, hset⟩
  intro t ht hsat
  obtain ⟨hmem, hall, hbits⟩ := hq t ht
  rw [hall, hbits] at hsat
  exact i.unsatisfied t hmem (hsat.mono hv)

theorem waitingTasks_ne {event' : ℕ} (h : event ≠ event') :
    waitingTasks event ≠ waitingTasks event' := by
  unfold waitingTasks
  omega

theorem set (i : EventInv event c) (event' : ℕ) (m : BitVec 32) :
    EventInv event (c.set event' m) := by
  unfold EventSys.set
  by_cases hvalid : (c.lw.lwevent event').valid ≠ lweventValid
  · simpa [LwData.lweventSet, hvalid] using i
  · simp only [LwData.lweventSet, if_neg hvalid, if_true]
    have hspec := lweventScan_spec (waitingTasks event') (c.lw.lwevent event').auto
      (c.lw.k.queues (waitingTasks event')) ((c.lw.lwevent event').value ||| m) i.running
      (i.running.inv.wait.nodup _) (fun t ht => ht)
    have hscan : lweventScan (waitingTasks event') (c.lw.lwevent event').auto
        (c.lw.k.queues (waitingTasks event')) c.lw.k ((c.lw.lwevent event').value ||| m) =
        c.lw.lweventSetScan event' m := rfl
    rw [hscan] at hspec
    rcases eq_or_ne event event' with rfl | hne
    · have hset : LogInv _ (c.consumed event) ((c.lw.lwevent event).value ||| m) :=
        i.log.set fun b => Nat.lt_succ_of_le (i.lastSet_le b)
      have hlog := lweventScan_log (waitingTasks event) (c.lw.lwevent event).auto
        (c.lw.k.queues (waitingTasks event)) (k := c.lw.k) hset
      rw [hscan] at hlog
      constructor
      · exact hspec.running
      · intro t ht
        have hmem := hspec.queue.subset ht
        simp only [LwData.setLwevent, Function.update_self, hspec.kept t ht]
        exact hspec.left t hmem ht
      · simp only [LwData.setLwevent, Function.update_self]
        exact hlog
      · intro b
        simp only [Function.update_self]
        split_ifs
        · exact le_rfl
        · exact Nat.le_succ_of_le (i.lastSet_le b)
    · have hq := waitingTasks_ne hne
      have hvalue : (({ c.lw with k := (c.lw.lweventSetScan event' m).k }).setLwevent event'
          { c.lw.lwevent event' with
            value := (c.lw.lweventSetScan event' m).bits }).lwevent event = c.lw.lwevent event :=
        Function.update_of_ne hne _ _
      apply i.of_sub hspec.running
      · intro t ht
        have hmem : t ∈ c.lw.k.queues (waitingTasks event) := by
          rw [← hspec.others _ hq]
          exact ht
        have htd := hspec.td t fun h => hq (i.running.inv.eq_of_mem_queue hmem h)
        refine ⟨hmem, ?_, ?_⟩
        · exact congrArg Td.allBitsWanted htd
        · exact congrArg Td.lweventBits htd
      · rw [hvalue]
        exact fun _ h => h
      · simp only [Function.update_of_ne hne, hvalue]
        exact i.log
      · intro b
        simp only [Function.update_of_ne hne]
        exact Nat.le_succ_of_le (i.lastSet_le b)

/-- A store to an event that leaves it valid and takes bits away at most. -/
theorem setLwevent (i : EventInv event c) {event' : ℕ} {o : Lwevent}
    (hv : ∀ i, o.value.getLsbD i = true → (c.lw.lwevent event').value.getLsbD i = true) :
    EventInv event { c with lw := c.lw.setLwevent event' o } := by
  have hsub : ∀ i, ((c.lw.setLwevent event' o).lwevent event).value.getLsbD i = true →
      (c.lw.lwevent event).value.getLsbD i = true := by
    intro i
    rcases eq_or_ne event event' with rfl | hne
    · simp only [LwData.setLwevent, Function.update_self]
      exact hv i
    · simp only [LwData.setLwevent, Function.update_of_ne hne]
      exact fun h => h
  exact i.of_sub i.running (fun t ht => ⟨ht, rfl, rfl⟩) hsub (i.log.mono hsub) i.lastSet_le

theorem clear (i : EventInv event c) (event' : ℕ) (m : BitVec 32) :
    EventInv event (c.clear event' m) := by
  unfold EventSys.clear LwData.lweventClear
  split_ifs with hvalid
  · exact i
  · exact i.setLwevent fun b hb => (BitVec.getLsbD_and_not hb).1

theorem setAutoClear (i : EventInv event c) (event' : ℕ) (m : BitVec 32) :
    EventInv event (c.setAutoClear event' m) := by
  unfold EventSys.setAutoClear LwData.lweventSetAutoClear
  split_ifs with hvalid
  · exact i
  · exact i.setLwevent fun b hb => hb

theorem dispatch (i : EventInv event c) {u : ℕ} (hu : (c.lw.k.td u).state = .ready) :
    EventInv event (c.dispatch u) :=
  ⟨i.running.dispatch hu, i.unsatisfied, i.log, i.lastSet_le⟩

theorem tick (i : EventInv event c) (hw : ℕ) : EventInv event (c.tick hw) := by
  have hspec := i.running.inv.timeNotifyKernel i.running.sliceReady hw
  apply i.of_sub (i.running.tick hw)
  · intro t ht
    have hmem : t ∈ (c.lw.k.timeNotifyKernel hw).queues (waitingTasks event) := ht
    rw [hspec.queues] at hmem
    obtain ⟨s, hs⟩ := hspec.td t
    refine ⟨List.mem_of_mem_filter hmem, ?_, ?_⟩
    · exact (congrArg Td.allBitsWanted hs).trans rfl
    · exact (congrArg Td.lweventBits hs).trans rfl
  · exact fun _ h => h
  · exact i.log
  · exact i.lastSet_le

/-- A wait that need not block. -/
theorem wait (i : EventInv event c) {fifo : Bool} {event' : ℕ} {m : BitVec 32} {all : Bool}
    {timeout : Option ℕ} (h : (c.lw.lweventWait fifo event' m all timeout).1 ≠ none) :
    EventInv event (c.wait fifo event' m all timeout) := by
  unfold EventSys.wait
  by_cases hvalid : (c.lw.lwevent event').valid ≠ lweventValid
  · simpa [LwData.lweventWait, hvalid] using i
  by_cases hsat : Satisfied all m (c.lw.lwevent event').value
  · simp only [LwData.lweventWait, if_neg hvalid, if_pos hsat, if_true]
    -- `LWEVENT_BITS` of the active task changes, and that one waits on no queue
    have hne : ∀ t ∈ c.lw.k.queues (waitingTasks event), t ≠ c.lw.k.activePtr := by
      rintro t ht rfl
      exact i.running.notMem_queue _ ht
    have hrun : Running (c.lw.k.setTd c.lw.k.activePtr { c.lw.k.td c.lw.k.activePtr with
        lweventBits := (c.lw.lwevent event').value &&& m }) :=
      i.running.setTd rfl rfl rfl rfl rfl
    have htd : ∀ t ∈ c.lw.k.queues (waitingTasks event),
        (c.lw.k.setTd c.lw.k.activePtr { c.lw.k.td c.lw.k.activePtr with
          lweventBits := (c.lw.lwevent event').value &&& m }).td t = c.lw.k.td t :=
      fun t ht => KernelData.setTd_td_of_ne _ _ (hne t ht)
    rcases eq_or_ne event event' with rfl | hev
    · apply i.of_sub hrun
      · intro t ht
        exact ⟨ht, congrArg Td.allBitsWanted (htd t ht), congrArg Td.lweventBits (htd t ht)⟩
      · intro b hb
        simp only [LwData.setLwevent, Function.update_self] at hb
        exact (BitVec.getLsbD_and_not hb).1
      · simp only [LwData.setLwevent, Function.update_self]
        rw [← BitVec.and_not_and_and]
        apply i.log.consume
        intro b hb
        simp only [BitVec.getLsbD_and, Bool.and_eq_true] at hb
        exact hb.2.1
      · exact i.lastSet_le
    · have hvalue : ∀ k' o, (({ c.lw with k := k' } : LwData).setLwevent event' o).lwevent event =
          c.lw.lwevent event := fun _ _ => Function.update_of_ne hev _ _
      apply i.of_sub hrun
      · intro t ht
        exact ⟨ht, congrArg Td.allBitsWanted (htd t ht), congrArg Td.lweventBits (htd t ht)⟩
      · rw [hvalue]
        exact fun _ h => h
      · simp only [Function.update_of_ne hev, hvalue]
        exact i.log
      · exact i.lastSet_le
  · simp [LwData.lweventWait, hvalid, hsat] at h

/-- The parts of a wait that blocks. -/
theorem lweventWait_none {s : LwData} {fifo : Bool} {event' : ℕ} {m : BitVec 32} {all : Bool}
    {timeout : Option ℕ} (h : (s.lweventWait fifo event' m all timeout).1 = none) :
    (s.lwevent event').valid = lweventValid ∧ ¬Satisfied all m (s.lwevent event').value ∧
      (s.lweventWait fifo event' m all timeout).2 =
        { s with k := s.lweventBlock fifo event' m all timeout } := by
  unfold LwData.lweventWait at h ⊢
  simp only at h ⊢
  split_ifs at h ⊢ with hvalid hsat
  exact ⟨not_not.mp hvalid, hsat, rfl⟩

/-- A wait that blocks: the new task could not be released either. -/
theorem block (i : EventInv event c) {fifo : Bool} {event' : ℕ} {m : BitVec 32} {all : Bool}
    {timeout : Option ℕ} {u : ℕ} (h : (c.lw.lweventWait fifo event' m all timeout).1 = none)
    (hu : ((c.wait fifo event' m all timeout).lw.k.td u).state = .ready) :
    EventInv event ((c.wait fifo event' m all timeout).dispatch u) := by
  obtain ⟨-, hsat, hstate⟩ := lweventWait_none h
  have hwait : c.wait fifo event' m all timeout =
      { c with lw := (c.lw.lweventWait fifo event' m all timeout).2 } := by
    unfold EventSys.wait
    simp [h]
  rw [hwait, hstate] at hu ⊢
  obtain ⟨t, ht⟩ : ∃ t, c.lw.k.activePtr = t := ⟨_, rfl⟩
  simp only [LwData.lweventBlock, ht] at hu ⊢
  obtain ⟨k, hk⟩ : ∃ k, c.lw.k.setTd t { c.lw.k.td t with
      lweventBits := m, allBitsWanted := all } = k := ⟨_, rfl⟩
  rw [hk] at hu ⊢
  have hrun : Running k := hk ▸ i.running.setTd rfl rfl rfl rfl rfl
  have hptr : k.activePtr = t := by
    rw [← hk]
    exact ht
  have htd : ∀ v, v ≠ t → k.td v = c.lw.k.td v := by
    intro v hv
    rw [← hk, KernelData.setTd_td_of_ne _ _ hv]
  have hqueues : k.queues = c.lw.k.queues := by
    rw [← hk]
    rfl
  refine ⟨?_, ?_, i.log, i.lastSet_le⟩
  · rw [← hptr] at hu
    have hrun' := hrun.waitFor (by rfl) (waitingTasks event') timeout fifo hu
    rw [hptr] at hrun'
    exact hrun'
  · intro v hv
    simp only [EventSys.dispatch, KernelData.dispatch_queues, KernelData.waitFor_queues,
      hqueues] at hv
    simp only [EventSys.dispatch, KernelData.dispatch_td]
    by_cases hvt : v = t
    · subst hvt
      have hself : k.td v = { c.lw.k.td v with lweventBits := m, allBitsWanted := all } := by
        rw [← hk, KernelData.setTd_td_self]
      rcases eq_or_ne event event' with rfl | hne
      · rw [KernelData.waitFor_td_self, hself]
        exact hsat
      · rw [Function.update_of_ne (waitingTasks_ne hne)] at hv
        exact absurd hv (ht ▸ i.running.notMem_queue _)
    · rw [KernelData.waitFor_td_of_ne _ _ _ _ _ hvt, htd v hvt]
      apply i.unsatisfied
      rcases eq_or_ne event event' with rfl | hne
      · rw [Function.update_self] at hv
        simpa [hvt] using hv
      · rwa [Function.update_of_ne (waitingTasks_ne hne)] at hv

theorem step (i : EventInv event c) {fifo : Bool} (h : EventStep fifo c c') :
    EventInv event c' := by
  cases h with
  | set event' m => exact i.set event' m
  | clear event' m => exact i.clear event' m
  | setAutoClear event' m => exact i.setAutoClear event' m
  | wait event' m all timeout hres => exact i.wait hres
  | block event' m all timeout u hres hu => exact i.block hres hu
  | tick hw => exact i.tick hw
  | dispatch u hu => exact i.dispatch hu

theorem steps (i : EventInv event c) {fifo : Bool}
    (h : Relation.ReflTransGen (EventStep fifo) c c') : EventInv event c' := by
  induction h with
  | refl => exact i
  | tail _ hstep ih => exact ih.step hstep

end EventInv
/-! ## One waiting task, in both orders -/

/-- What a task gets and what is left: `LWEVENT_BITS` and `VALUE`. -/
def LwData.outcome (s : LwData) (t event : ℕ) : BitVec 32 × BitVec 32 :=
  ((s.k.td t).lweventBits, (s.lwevent event).value)

/-- Setting bits while nobody waits. -/
theorem lweventSet_of_nil {s : LwData} {event : ℕ} {m : BitVec 32}
    (hvalid : (s.lwevent event).valid = lweventValid)
    (hq : s.k.queues (waitingTasks event) = []) :
    (s.lweventSet event m).2 = s.setLwevent event
      { s.lwevent event with value := (s.lwevent event).value ||| m } := by
  unfold LwData.lweventSet LwData.lweventSetScan
  rw [if_neg (not_not_intro hvalid), hq]
  rfl

/-- Setting bits while one task waits. -/
theorem lweventSet_outcome_singleton {s : LwData} {event t : ℕ} {m wanted : BitVec 32}
    {all : Bool} (hvalid : (s.lwevent event).valid = lweventValid)
    (hq : s.k.queues (waitingTasks event) = [t]) (hall : (s.k.td t).allBitsWanted = all)
    (hwanted : (s.k.td t).lweventBits = wanted) :
    (s.lweventSet event m).2.outcome t event =
      if Satisfied all wanted ((s.lwevent event).value ||| m) then
        (wanted &&& ((s.lwevent event).value ||| m),
          ((s.lwevent event).value ||| m) &&& ~~~((s.lwevent event).auto &&& wanted))
      else (wanted, (s.lwevent event).value ||| m) := by
  subst hall hwanted
  unfold LwData.lweventSet LwData.lweventSetScan LwData.outcome
  rw [if_neg (not_not_intro hvalid), hq]
  simp only [lweventScan, LwData.setLwevent, Function.update_self]
  split_ifs with hsat
  · have hbits : ((s.k.activate (waitingTasks event) t).td t).lweventBits =
        (s.k.td t).lweventBits := by
      rw [KernelData.activate_td_self]
    rw [KernelData.setTd_td_self, hbits, BitVec.and_comm (s.k.td t).lweventBits,
      BitVec.and_not_and_and]
  · rfl

/-- A wait, with the bits set before it. -/
theorem lweventWait_outcome {s : LwData} {event : ℕ} (fifo : Bool) (m : BitVec 32) (all : Bool)
    (timeout : Option ℕ) (hvalid : (s.lwevent event).valid = lweventValid) :
    (s.lweventWait fifo event m all timeout).2.outcome s.k.activePtr event =
      if Satisfied all m (s.lwevent event).value then
        (m &&& (s.lwevent event).value,
          (s.lwevent event).value &&& ~~~((s.lwevent event).auto &&& m))
      else (m, (s.lwevent event).value) := by
  unfold LwData.lweventWait LwData.outcome
  simp only
  rw [if_neg (not_not_intro hvalid)]
  split_ifs with hsat
  · simp only [LwData.setLwevent, Function.update_self, KernelData.setTd_td_self]
    rw [BitVec.and_comm m]
  · simp only [LwData.lweventBlock, KernelData.waitFor_td_self, KernelData.setTd_td_self]

/-- A task that has to wait gets the same bits and leaves the same value whether it waits
before the bits are set or after. -/
theorem wait_set_eq_set_wait {s : LwData} {fifo : Bool} {event u : ℕ} {m wanted : BitVec 32}
    {all : Bool} {timeout : Option ℕ} (hq : s.k.queues (waitingTasks event) = [])
    (hwait : (s.lweventWait fifo event wanted all timeout).1 = none) :
    (LwData.lweventSet { (s.lweventWait fifo event wanted all timeout).2 with
        k := (s.lweventWait fifo event wanted all timeout).2.k.dispatch u } event m).2.outcome
          s.k.activePtr event =
      ((s.lweventSet event m).2.lweventWait fifo event wanted all timeout).2.outcome
        s.k.activePtr event := by
  obtain ⟨hvalid, -, hstate⟩ := EventInv.lweventWait_none hwait
  have hset := lweventSet_of_nil (m := m) hvalid hq
  have hptr : (s.lweventSet event m).2.k.activePtr = s.k.activePtr := by
    rw [hset]
    rfl
  have hlater : (s.lweventSet event m).2.lwevent event =
      { s.lwevent event with value := (s.lwevent event).value ||| m } := by
    rw [hset]
    simp [LwData.setLwevent]
  rw [hstate]
  have hqueue : (s.lweventBlock fifo event wanted all timeout).queues (waitingTasks event) =
      [s.k.activePtr] := by
    simp [LwData.lweventBlock, hq]
  have htd := KernelData.waitFor_td_self (s.k.setTd s.k.activePtr { s.k.td s.k.activePtr with
    lweventBits := wanted, allBitsWanted := all }) fifo s.k.activePtr .lweventBlocked
    (waitingTasks event) timeout
  rw [KernelData.setTd_td_self] at htd
  have hfirst := lweventSet_outcome_singleton (m := m) (t := s.k.activePtr)
    (s := { s with k := (s.lweventBlock fifo event wanted all timeout).dispatch u }) hvalid hqueue
    (congrArg Td.allBitsWanted htd) (congrArg Td.lweventBits htd)
  have hlater_valid : ((s.lweventSet event m).2.lwevent event).valid = lweventValid := by
    rw [hlater]
    exact hvalid
  have hsecond := lweventWait_outcome fifo wanted all timeout hlater_valid
  rw [hptr, hlater] at hsecond
  rw [hsecond]
  exact hfirst

/-- An event that nobody waits for and nothing is recorded of. -/
structure EventInit (event : ℕ) (c : EventSys) : Prop where
  running : Running c.lw.k
  waitingTasks : c.lw.k.queues (waitingTasks event) = []
  consumed : c.consumed event = []
  lastSet_le : ∀ b, c.lastSet event b ≤ c.settings

theorem EventInit.inv {event : ℕ} {c : EventSys} (h : EventInit event c) : EventInv event c := by
  refine ⟨h.running, ?_, ?_, h.lastSet_le⟩
  · simp [h.waitingTasks]
  · rw [h.consumed]
    exact ⟨List.nodup_nil, by simp, by simp⟩

/-- What holds of an event in every state. -/
structure EventSpec (fifo : Bool) (event : ℕ) (c : EventSys) : Prop where
  /-- No waiting task has what it waits for. -/
  unsatisfied : ∀ t ∈ c.lw.k.queues (waitingTasks event),
    ¬Satisfied (c.lw.k.td t).allBitsWanted (c.lw.k.td t).lweventBits (c.lw.lwevent event).value
  /-- No setting of a bit that is cleared automatically has been used twice. -/
  consumed_once : (c.consumed event).Nodup
  /-- A single task that has to wait gets the same, waiting before or after the setting. -/
  order : ∀ (u : ℕ) (m wanted : BitVec 32) (all : Bool) (timeout : Option ℕ),
    c.lw.k.queues (waitingTasks event) = [] →
    (c.lw.lweventWait fifo event wanted all timeout).1 = none →
    (LwData.lweventSet { (c.lw.lweventWait fifo event wanted all timeout).2 with
        k := (c.lw.lweventWait fifo event wanted all timeout).2.k.dispatch u } event m).2.outcome
          c.lw.k.activePtr event =
      ((c.lw.lweventSet event m).2.lweventWait fifo event wanted all timeout).2.outcome
        c.lw.k.activePtr event

/-- In every run of sets, clears, changes of the automatic bits, waits and ticks by any
number of tasks on any events. -/
theorem lwevent_runs {event : ℕ} {fifo : Bool} {c c' : EventSys} (hinit : EventInit event c)
    (hrun : Relation.ReflTransGen (EventStep fifo) c c') : EventSpec fifo event c' := by
  have i := hinit.inv.steps hrun
  exact ⟨i.unsatisfied, i.log.nodup, fun _ _ _ _ _ hq hwait => wait_set_eq_set_wait hq hwait⟩

/-- Four tasks and an event that clears its bits automatically. -/
def eventBoot : EventSys where
  lw := ((bootLw 4).lweventCreateInternal 0x200 1 false).2
  settings := 0
  lastSet _ _ := 0
  consumed _ := []

theorem eventBoot_init : EventInit 0x200 eventBoot := by
  have hk : eventBoot.lw.k = bootKernel 4 :=
    congrArg LwData.k (LwData.queueInit_eq_self _ (q := waitingTasks 0x200) rfl)
  refine ⟨hk ▸ bootKernel_running (by decide), ?_, rfl, fun _ => le_rfl⟩
  rw [hk]
  rfl

/-- Two tasks wait for the same bit; one setting releases the first of them. -/
def eventBootRun : EventSys :=
  ((((eventBoot.wait false 0x200 1 true none).dispatch 2).wait false 0x200 3 false
    (some 9)).dispatch 3).set 0x200 1

theorem lwevent_runs_eventBoot :
    Relation.ReflTransGen (EventStep false) eventBoot eventBootRun ∧
      eventBootRun.lw.k.queues (waitingTasks 0x200) = [2] ∧
      eventBootRun.consumed 0x200 = [(0, 1)] ∧ EventSpec false 0x200 eventBootRun := by
  have hrun : Relation.ReflTransGen (EventStep false) eventBoot eventBootRun := by
    refine Relation.ReflTransGen.head (.block 0x200 1 true none 2 (by decide) (by decide)) ?_
    refine Relation.ReflTransGen.head (.block 0x200 3 false (some 9) 3 (by decide) (by decide)) ?_
    exact Relation.ReflTransGen.single (.set 0x200 1)
  exact ⟨hrun, by decide, by decide, lwevent_runs eventBoot_init hrun⟩

/-- The event with bit 0 set. -/
def bitSet : LwData := (eventBoot.lw.lweventSet 0x200 1).2

/-- A task that need not wait takes what is there: waiting for bit 0 or 1 before bit 1 is
set gives bit 0 only. -/
theorem wait_set_ne_set_wait :
    ((bitSet.lweventWait false 0x200 3 false none).2.lweventSet 0x200 2).2.outcome 1 0x200 =
      (1, 2) ∧
    ((bitSet.lweventSet 0x200 2).2.lweventWait false 0x200 3 false none).2.outcome 1 0x200 =
      (3, 0) := by
  decide

end Mqx.Lw
