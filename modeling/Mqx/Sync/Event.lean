import Mathlib.Data.BitVec
import Mathlib.Tactic.Common
import Mqx.Library.BitMask

/-!
# Event groups

Model of the waiting and setting of `event.c` for one event group. A task that has to wait goes
to sleep inside `_event_wait_internal`; what is left of its call runs when the task does.
-/

namespace Mqx.Sync

open Function (update)

/-- `EVENT_CONNECTION_STRUCT`, with its two flags. -/
structure EventConnection where
  td : ℕ
  mask : BitVec 32
  wantsAll : Bool
  occurred : Bool

/-- A call of `_event_wait_internal` that has put its task to sleep. -/
structure EventWait where
  connection : ℕ
  bitMask : BitVec 32
  timed : Bool

/-- `EVENT_STRUCT` with its connections, the tasks in the state `EVENT_BLOCKED` on the group and
the calls they are in. -/
structure EventGroup where
  event : BitVec 32
  autoClear : Bool
  waitingTasks : List ℕ
  connections : ℕ → EventConnection
  blocked : ℕ → Bool
  waits : ℕ → Option EventWait

/-- `MQX_OK`, `EVENT_INVALID_EVENT_HANDLE` and `EVENT_WAIT_TIMEOUT`. -/
inductive EventStatus where
  | ok
  | invalidEventHandle
  | waitTimeout
deriving DecidableEq

/-- The bits are enough for a wait for any or all bits of the mask. -/
def BitsOk (all : Bool) (mask bits : BitVec 32) : Prop :=
  all = true ∧ mask &&& bits = mask ∨ all = false ∧ mask &&& bits ≠ 0

instance (all : Bool) (mask bits : BitVec 32) : Decidable (BitsOk all mask bits) :=
  inferInstanceAs (Decidable (_ ∨ _))

namespace EventGroup

/-- The condition of a connection. -/
def Satisfied (g : EventGroup) (c : ℕ) (bits : BitVec 32) : Prop :=
  BitsOk (g.connections c).wantsAll (g.connections c).mask bits

instance (g : EventGroup) (c : ℕ) (bits : BitVec 32) : Decidable (g.Satisfied c bits) :=
  inferInstanceAs (Decidable (BitsOk _ _ _))

/-- The task of a connection gets ready. -/
def release (g : EventGroup) (c : ℕ) : EventGroup :=
  { g with
    connections := update g.connections c { g.connections c with occurred := true }
    blocked := update g.blocked (g.connections c).td false }

/-- The loop of `_event_set` over the waiting connections, with the bits. -/
def setLoop : List ℕ → EventGroup → BitVec 32 → EventGroup × BitVec 32
  | [], g, setBits => (g, setBits)
  | c :: l, g, setBits =>
    if g.Satisfied c setBits then
      if g.blocked (g.connections c).td then
        if g.autoClear then (g.release c, setBits &&& ~~~(g.connections c).mask)
        else setLoop l (g.release c) setBits
      else setLoop l g setBits
    else setLoop l g setBits

/-- `_event_set`. -/
def set (g : EventGroup) (bitMask : BitVec 32) : EventGroup :=
  let setBits := g.event ||| bitMask
  let (g, setBits) :=
    if g.waitingTasks.length ≠ 0 then setLoop g.waitingTasks g setBits else (g, setBits)
  { g with event := setBits }

/-- `_event_clear`. -/
def clear (g : EventGroup) (bitMask : BitVec 32) : EventGroup :=
  { g with event := g.event &&& ~~~bitMask }

/-- The end of `_event_wait_internal`, when the task has got what it waited for. -/
def got (g : EventGroup) (bitMask : BitVec 32) : EventGroup :=
  if g.autoClear then { g with event := g.event &&& ~~~bitMask } else g

/-- `_event_wait_internal` of the task `t`; without a status the task sleeps. -/
def wait (g : EventGroup) (t c : ℕ) (bitMask : BitVec 32) (timed all : Bool) :
    EventGroup × Option EventStatus :=
  if (g.connections c).td ≠ t then (g, some .invalidEventHandle)
  else if all = true ∧ g.event &&& bitMask ≠ bitMask ∨ all = false ∧ g.event &&& bitMask = 0 then
    ({ g with
        connections := update g.connections c
          { g.connections c with wantsAll := all, occurred := false, mask := bitMask }
        waitingTasks := g.waitingTasks ++ [c]
        blocked := update g.blocked t true
        waits := update g.waits t (some ⟨c, bitMask, timed⟩) }, none)
  else (g.got bitMask, some .ok)

/-- The time of the task `t` is up: the kernel makes it ready. -/
def timeout (g : EventGroup) (t : ℕ) : EventGroup := { g with blocked := update g.blocked t false }

/-- The rest of `_event_wait_internal` when the task `t` runs again. -/
def resume (g : EventGroup) (t : ℕ) : EventGroup × Option EventStatus :=
  match g.waits t with
  | none => (g, none)
  | some w =>
    let g := { g with waitingTasks := g.waitingTasks.erase w.connection, waits := update g.waits t none }
    if w.timed ∧ (g.connections w.connection).occurred = false then (g, some .waitTimeout)
    else (g.got w.bitMask, some .ok)

end EventGroup

/-- What tasks, interrupts and the clock do to the group. -/
inductive EventOp where
  | set (bitMask : BitVec 32)
  | clear (bitMask : BitVec 32)
  | wait (t c : ℕ) (bitMask : BitVec 32) (timed all : Bool)
  | timeout (t : ℕ)
  | resume (t : ℕ)

namespace EventGroup

def apply (g : EventGroup) : EventOp → EventGroup
  | .set bitMask => g.set bitMask
  | .clear bitMask => g.clear bitMask
  | .wait t c bitMask timed all => (g.wait t c bitMask timed all).1
  | .timeout t => g.timeout t
  | .resume t => (g.resume t).1

def run (g : EventGroup) (ops : List EventOp) : EventGroup := ops.foldl apply g

/-- When a step is possible: a task in a call makes no other one, only the time of a timed wait
runs out, and a task runs again once it is ready. -/
def Enabled (g : EventGroup) : EventOp → Prop
  | .set _ => True
  | .clear _ => True
  | .wait t _ _ _ _ => g.waits t = none
  | .timeout t => g.blocked t = true ∧ ∃ w, g.waits t = some w ∧ w.timed = true
  | .resume t => g.blocked t = false ∧ g.waits t ≠ none

/-- The connection that a setting of an automatically cleared group serves. -/
def served (g : EventGroup) (bits : BitVec 32) : Option ℕ :=
  g.waitingTasks.find? fun c => g.Satisfied c bits && g.blocked (g.connections c).td

/-- No blocked task has its condition satisfied. -/
def NoneSatisfied (g : EventGroup) : Prop :=
  ∀ c ∈ g.waitingTasks, g.blocked (g.connections c).td = true → ¬ g.Satisfied c g.event

/-- With automatic clearing, a setting leaves nothing for a task besides the one it releases,
and a released task finds none of its bits set again when it runs. -/
def Regular (g : EventGroup) : EventOp → Prop
  | .set bitMask => g.autoClear = true → ∀ c ∈ g.served (g.event ||| bitMask),
      ∀ c' ∈ g.waitingTasks, g.blocked (g.connections c').td = true →
        (g.connections c').td ≠ (g.connections c).td →
          ¬ g.Satisfied c' ((g.event ||| bitMask) &&& ~~~(g.connections c).mask)
  | .resume t => g.autoClear = true → ∀ w ∈ g.waits t,
      (w.timed = true → (g.connections w.connection).occurred = true) → g.event &&& w.bitMask = 0
  | _ => True

/-- A run all of whose steps meet the condition. -/
def RegularRun : EventGroup → List EventOp → Prop
  | _, [] => True
  | g, op :: ops => g.Enabled op ∧ g.Regular op ∧ RegularRun (g.apply op) ops

/-- The step takes away the bit `i` on purpose: it is cleared, given to the task that a setting
releases, or taken by a task that need not wait. -/
inductive TakenBy (g : EventGroup) (i : ℕ) : EventOp → Prop where
  | clear {bitMask : BitVec 32} : bitMask.getLsbD i = true → TakenBy g i (.clear bitMask)
  | set {bitMask : BitVec 32} {c : ℕ} : g.served (g.event ||| bitMask) = some c →
      (g.connections c).mask.getLsbD i = true → TakenBy g i (.set bitMask)
  | wait {t c : ℕ} {bitMask : BitVec 32} {timed all : Bool} :
      (g.wait t c bitMask timed all).2 = some .ok → bitMask.getLsbD i = true →
        TakenBy g i (.wait t c bitMask timed all)

variable {g : EventGroup} {c : ℕ} {bits bits' bitMask : BitVec 32} {op : EventOp}
  {ops : List EventOp}

/-! ## Setting -/

/-- Fewer bits satisfy no more. -/
theorem bitsOk_and {all : Bool} {mask m : BitVec 32} (h : BitsOk all mask (bits &&& m)) :
    BitsOk all mask bits := by
  rcases h with ⟨hall, h⟩ | ⟨hall, h⟩
  · refine Or.inl ⟨hall, (BitVec.and_eq_left_iff _ _).mpr fun i hi => ?_⟩
    have hand := (BitVec.and_eq_left_iff _ _).mp h i hi
    rw [BitVec.getLsbD_and, Bool.and_eq_true] at hand
    exact hand.1
  · obtain ⟨i, hi, hand⟩ := (BitVec.and_ne_zero_iff _ _).mp h
    rw [BitVec.getLsbD_and, Bool.and_eq_true] at hand
    exact Or.inr ⟨hall, (BitVec.and_ne_zero_iff _ _).mpr ⟨i, hi, hand.1⟩⟩

/-- What a release keeps: the masks, and no task gets blocked. -/
theorem release_satisfied (g : EventGroup) (c c' : ℕ) (bits : BitVec 32) :
    (g.release c).Satisfied c' bits ↔ g.Satisfied c' bits := by
  unfold Satisfied release
  by_cases hc : c' = c
  · simp [hc]
  · simp [hc]

theorem release_td (g : EventGroup) (c c' : ℕ) :
    ((g.release c).connections c').td = (g.connections c').td := by
  unfold release
  by_cases hc : c' = c
  · simp [hc]
  · simp [hc]

theorem release_blocked {t : ℕ} (h : (g.release c).blocked t = true) :
    g.blocked t = true ∧ t ≠ (g.connections c).td := by
  unfold release at h
  by_cases ht : t = (g.connections c).td
  · simp [ht] at h
  · simp only [Function.update_of_ne ht] at h
    exact ⟨h, ht⟩

/-- With automatic clearing the loop stops at the connection it serves. -/
theorem setLoop_auto (hauto : g.autoClear = true) (l : List ℕ) :
    setLoop l g bits =
      match l.find? fun c => g.Satisfied c bits && g.blocked (g.connections c).td with
      | none => (g, bits)
      | some c => (g.release c, bits &&& ~~~(g.connections c).mask) := by
  induction l with
  | nil => rfl
  | cons c l ih =>
    rw [setLoop, List.find?_cons]
    by_cases hsat : g.Satisfied c bits
    · by_cases hblocked : g.blocked (g.connections c).td = true
      · rw [if_pos hsat, if_pos hblocked, if_pos hauto]
        simp [hsat, hblocked]
      · rw [if_pos hsat, if_neg hblocked, ih]
        simp [hblocked]
    · rw [if_neg hsat, ih]
      simp [hsat]

/-- Without it every satisfied task of the list is released, and the bits stay. -/
theorem setLoop_keep (hauto : g.autoClear = false) (l : List ℕ) (bits : BitVec 32) :
    (setLoop l g bits).2 = bits ∧ (setLoop l g bits).1.waitingTasks = g.waitingTasks ∧
      (∀ c, ((setLoop l g bits).1.connections c).td = (g.connections c).td) ∧
      (∀ c bits', (setLoop l g bits).1.Satisfied c bits' ↔ g.Satisfied c bits') ∧
      (∀ t, (setLoop l g bits).1.blocked t = true → g.blocked t = true) ∧
      ∀ c ∈ l, (setLoop l g bits).1.blocked (g.connections c).td = true → ¬ g.Satisfied c bits := by
  induction l generalizing g with
  | nil => exact ⟨rfl, rfl, fun _ => rfl, fun _ _ => Iff.rfl, fun _ h => h, by simp⟩
  | cons c l ih =>
    by_cases hserve : g.Satisfied c bits ∧ g.blocked (g.connections c).td = true
    · obtain ⟨hbits, hwaiting, htd, hsat, hblocked, hdone⟩ := ih (g := g.release c) hauto
      rw [setLoop, if_pos hserve.1, if_pos hserve.2, if_neg (by simp [hauto])]
      refine ⟨hbits, hwaiting, fun c' => (htd c').trans (release_td g c c'),
        fun c' b => (hsat c' b).trans (release_satisfied g c c' b),
        fun t ht => (release_blocked (hblocked t ht)).1, fun c' hc' hb => ?_⟩
      rcases List.mem_cons.mp hc' with rfl | hc'
      · exact absurd rfl (release_blocked (hblocked _ hb)).2
      · rw [← release_satisfied g c]
        exact hdone c' hc' (by rwa [release_td])
    · have hloop : setLoop (c :: l) g bits = setLoop l g bits := by
        rw [setLoop]
        by_cases hc : g.Satisfied c bits
        · rw [if_pos hc, if_neg fun hb => hserve ⟨hc, hb⟩]
        · rw [if_neg hc]
      obtain ⟨hbits, hwaiting, htd, hsat, hblocked, hdone⟩ := ih hauto
      rw [hloop]
      refine ⟨hbits, hwaiting, htd, hsat, hblocked, fun c' hc' hb => ?_⟩
      rcases List.mem_cons.mp hc' with rfl | hc'
      · exact fun hc => hserve ⟨hc, hblocked _ hb⟩
      · exact hdone c' hc' hb

theorem set_eq (g : EventGroup) (bitMask : BitVec 32) :
    g.set bitMask = { (setLoop g.waitingTasks g (g.event ||| bitMask)).1 with
      event := (setLoop g.waitingTasks g (g.event ||| bitMask)).2 } := by
  have hloop : (if g.waitingTasks.length ≠ 0 then
        setLoop g.waitingTasks g (g.event ||| bitMask) else (g, g.event ||| bitMask)) =
      setLoop g.waitingTasks g (g.event ||| bitMask) := by
    by_cases hlen : g.waitingTasks.length ≠ 0
    · rw [if_pos hlen]
    · rw [if_neg hlen, List.eq_nil_of_length_eq_zero (not_not.mp hlen)]
      rfl
  unfold set
  simp only [hloop]

/-- After a regular setting no blocked task is satisfied. -/
theorem set_noneSatisfied (hreg : g.Regular (.set bitMask)) : (g.set bitMask).NoneSatisfied := by
  rw [set_eq]
  cases hauto : g.autoClear with
  | false =>
    obtain ⟨hbits, hwaiting, htd, hsat, -, hdone⟩ :=
      setLoop_keep hauto g.waitingTasks (g.event ||| bitMask)
    intro c hc hblocked hcond
    have hc' : c ∈ g.waitingTasks := hwaiting ▸ hc
    refine hdone c hc' ?_ ?_
    · rw [← htd c]
      exact hblocked
    · have hcond' := (hsat c _).mp hcond
      simp only [hbits] at hcond'
      exact hcond'
  | true =>
    rw [setLoop_auto hauto]
    have hserved : g.served (g.event ||| bitMask) = g.waitingTasks.find? fun c =>
        g.Satisfied c (g.event ||| bitMask) && g.blocked (g.connections c).td := rfl
    rw [← hserved]
    cases hfind : g.served (g.event ||| bitMask) with
    | none =>
      intro c hc hblocked hcond
      rw [hserved] at hfind
      have hnot := List.find?_eq_none.mp hfind c hc
      rw [Bool.and_eq_true, decide_eq_true_iff] at hnot
      exact hnot ⟨hcond, hblocked⟩
    | some c =>
      intro c' hc' hblocked hcond
      have htd : ((g.release c).connections c').td = (g.connections c').td := release_td g c c'
      obtain ⟨hb, hne⟩ := release_blocked (c := c) (htd ▸ hblocked)
      exact hreg hauto c hfind c' hc' hb hne ((release_satisfied g c c' _).mp hcond)

/-- The bits after a setting. -/
theorem set_event (g : EventGroup) (bitMask : BitVec 32) {i : ℕ} (hi : g.event.getLsbD i = true)
    (hi' : (g.set bitMask).event.getLsbD i ≠ true) : TakenBy g i (.set bitMask) := by
  have hor : (g.event ||| bitMask).getLsbD i = true := by rw [BitVec.getLsbD_or, hi, Bool.true_or]
  rw [set_eq] at hi'
  cases hauto : g.autoClear with
  | false =>
    simp only [(setLoop_keep hauto g.waitingTasks (g.event ||| bitMask)).1] at hi'
    exact absurd hor hi'
  | true =>
    rw [setLoop_auto hauto] at hi'
    have hserved : g.served (g.event ||| bitMask) = g.waitingTasks.find? fun c =>
        g.Satisfied c (g.event ||| bitMask) && g.blocked (g.connections c).td := rfl
    rw [← hserved] at hi'
    cases hfind : g.served (g.event ||| bitMask) with
    | none =>
      rw [hfind] at hi'
      exact absurd hor hi'
    | some c =>
      rw [hfind] at hi'
      refine .set hfind ?_
      by_contra hmask
      refine hi' ?_
      have hlt : i < 32 := BitVec.lt_of_getLsbD hi
      simp only [BitVec.getLsbD_and, BitVec.getLsbD_not, hor, hlt]
      simpa using hmask

/-! ## Runs -/

theorem got_event (g : EventGroup) (bitMask : BitVec 32) {i : ℕ} (hi : g.event.getLsbD i = true)
    (hi' : (g.got bitMask).event.getLsbD i ≠ true) :
    g.autoClear = true ∧ bitMask.getLsbD i = true := by
  unfold got at hi'
  by_cases hauto : g.autoClear = true
  · rw [if_pos hauto] at hi'
    refine ⟨hauto, ?_⟩
    by_contra hmask
    refine hi' ?_
    have hlt : i < 32 := BitVec.lt_of_getLsbD hi
    simp only [BitVec.getLsbD_and, BitVec.getLsbD_not, hi, hlt]
    simpa using hmask
  · rw [if_neg hauto] at hi'
    exact absurd hi hi'

/-- In a regular step a bit is only taken away on purpose. -/
theorem apply_takenBy (hreg : g.Regular op) {i : ℕ} (hi : g.event.getLsbD i = true)
    (hi' : (g.apply op).event.getLsbD i ≠ true) : TakenBy g i op := by
  cases op with
  | set bitMask => exact set_event g bitMask hi hi'
  | clear bitMask =>
    refine .clear ?_
    by_contra hmask
    refine hi' ?_
    have hlt : i < 32 := BitVec.lt_of_getLsbD hi
    show (g.event &&& ~~~bitMask).getLsbD i = true
    simp only [BitVec.getLsbD_and, BitVec.getLsbD_not, hi, hlt]
    simpa using hmask
  | wait t c bitMask timed all =>
    have hwait : (g.wait t c bitMask timed all).1.event.getLsbD i ≠ true := hi'
    by_cases htd : (g.connections c).td ≠ t
    · simp only [wait, if_pos htd] at hwait
      exact absurd hi hwait
    · by_cases hsleep : all = true ∧ g.event &&& bitMask ≠ bitMask ∨
          all = false ∧ g.event &&& bitMask = 0
      · simp only [wait, if_neg htd, if_pos hsleep] at hwait
        exact absurd hi hwait
      · have heq : g.wait t c bitMask timed all = (g.got bitMask, some .ok) := by
          rw [wait, if_neg htd, if_neg hsleep]
        rw [heq] at hwait
        exact .wait (by rw [heq]) (got_event g bitMask hi hwait).2
  | timeout t => exact absurd hi hi'
  | resume t =>
    have hresume : (g.resume t).1.event.getLsbD i ≠ true := hi'
    unfold resume at hresume
    cases hw : g.waits t with
    | none =>
      rw [hw] at hresume
      exact absurd hi hresume
    | some w =>
      simp only [hw] at hresume
      by_cases hlate : w.timed = true ∧ (g.connections w.connection).occurred = false
      · rw [if_pos hlate] at hresume
        exact absurd hi hresume
      · rw [if_neg hlate] at hresume
        obtain ⟨hauto, hmask⟩ := got_event { g with
          waitingTasks := g.waitingTasks.erase w.connection
          waits := update g.waits t none } w.bitMask hi hresume
        have hzero := hreg hauto w hw fun htimed => by simpa using fun hc => hlate ⟨htimed, hc⟩
        have hbit := congrArg (fun v => v.getLsbD i) hzero
        simp only [BitVec.getLsbD_and, hi, hmask] at hbit
        exact absurd hbit (by simp)

theorem RegularRun.split {before after : List EventOp} (h : RegularRun g (before ++ op :: after)) :
    (g.run before).Regular op := by
  induction before generalizing g with
  | nil => exact h.2.1
  | cons o before ih => exact ih h.2.2

/-- In a run whose steps all meet the condition, no setting leaves a blocked task with its
condition satisfied, and a bit that is set stays until it is cleared, given to the task that a
setting releases, or taken by a task that need not wait. -/
theorem event_group_runs (h : RegularRun g ops) (before after : List EventOp) (op : EventOp)
    (hops : ops = before ++ op :: after) :
    (∀ bitMask, op = .set bitMask → (g.run (before ++ [op])).NoneSatisfied) ∧
      ∀ i, (g.run before).event.getLsbD i = true →
        (g.run (before ++ [op])).event.getLsbD i ≠ true → TakenBy (g.run before) i op := by
  subst hops
  have hreg := h.split
  have hrun : g.run (before ++ [op]) = (g.run before).apply op := List.foldl_append
  rw [hrun]
  refine ⟨?_, fun i hi hi' => apply_takenBy hreg hi hi'⟩
  rintro bitMask rfl
  exact set_noneSatisfied hreg

/-- An automatically cleared group with the connections 1 and 2 of the tasks 1 and 2. -/
def twoWaiters : EventGroup where
  event := 0
  autoClear := true
  waitingTasks := []
  connections c := ⟨c, 0, false, false⟩
  blocked _ := false
  waits _ := none

theorem event_group_runs_served :
    (twoWaiters.run [.wait 1 1 1 false false, .set 1]).NoneSatisfied := by
  have hrun : RegularRun twoWaiters [.wait 1 1 1 false false, .set 1] := by
    refine ⟨rfl, trivial, trivial, fun _ c hc c' hc' _ hne => ?_, trivial⟩
    obtain rfl : 1 = c := Option.some.inj hc
    obtain rfl : c' = 1 := List.mem_singleton.mp hc'
    exact absurd rfl hne
  exact (event_group_runs hrun [.wait 1 1 1 false false] [] (.set 1) rfl).1 1 rfl

/-- Two tasks wait for different bits and both are set: one of them stays blocked. And a bit
that is set again after its task was released is gone when that task runs. -/
theorem event_group_loses :
    ¬ (twoWaiters.run [.wait 1 1 1 false false, .wait 2 2 2 false false, .set 3]).NoneSatisfied ∧
      (twoWaiters.run [.wait 1 1 1 false false, .set 1, .set 1]).event = 1 ∧
      (twoWaiters.run [.wait 1 1 1 false false, .set 1, .set 1, .resume 1]).event = 0 := by
  refine ⟨fun hc => hc 2 (by decide) (by decide) (by decide), by decide, by decide⟩

end EventGroup

end Mqx.Sync
