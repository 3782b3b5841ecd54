import Mqx.Lw.Lwtimer

/-!
# The timer interrupt handler keeps its place

Between two steps the timers of a queue fall into those that the handler has passed in
this period, `done`, and those still to come, `todo`; `TIMER_PTR` is the last of `done`.
The invariant relates the offsets of both to the time of the period, and the place the
handler goes on from to the front of `todo`.
-/

namespace Mqx.Lw

open PointerList

/-- The state of one queue. -/
structure QueueInv (s : LwtimerData) (q : ℕ) (done todo : List ℕ) : Prop where
  ring : s.links.Holds q (done ++ todo)
  size : (s.queue q).size = (done ++ todo).length
  size_lt : (done ++ todo).length < 2 ^ 16
  sorted : (done ++ todo).Pairwise fun a b => s.relativeTicks a ≤ s.relativeTicks b
  ptr : (s.queue q).timerPtr = done.getLastD q
  expiry : (s.queue q).expiry < (s.queue q).period
  lt_period : ∀ t ∈ done ++ todo, s.relativeTicks t < (s.queue q).period
  todo_ge : ∀ t ∈ todo, (s.queue q).expiry ≤ s.relativeTicks t
  done_lt : ∀ t ∈ done, s.relativeTicks t < s.nextOffset q

/-- The handler goes on with `cur`: if a timer is due that is the first of them, and if
none is due it stops. -/
structure GoesOn (s : LwtimerData) (q : ℕ) (todo : List ℕ) (cur : ℕ) : Prop where
  due : ∀ t l, todo = t :: l → s.relativeTicks t ≤ (s.queue q).expiry → cur = t
  stop : (∀ t l, todo = t :: l → (s.queue q).expiry < s.relativeTicks t) →
    cur = q ∨ (s.queue q).expiry < s.relativeTicks cur

/-- In the function of `t`: the timer is the last one processed, or it has been added
again when none was due, or it is cancelled and its old link leads on. -/
inductive RunsOn (s : LwtimerData) (q t : ℕ) (done todo : List ℕ) : Prop
  | last (hlast : done.getLast? = some t)
  | again (ht : t ∈ todo) (hnone : ∀ u ∈ todo, (s.queue q).expiry < s.relativeTicks u)
  | cancelled (hv : s.valid t = false) (hgo : GoesOn s q todo (s.links.next t))

/-- The place of the handler. -/
def PhaseInv (s : LwtimerData) (done todo : ℕ → List ℕ) : Prop :=
  match s.phase with
  | .idle => True
  | .visit rest => rest ⊆ s.lwtimers
  | .scan q cur rest => q ∈ s.lwtimers ∧ rest ⊆ s.lwtimers ∧ GoesOn s q (todo q) cur
  | .running q t rest =>
    q ∈ s.lwtimers ∧ rest ⊆ s.lwtimers ∧ t ∉ s.lwtimers ∧ RunsOn s q t (done q) (todo q)

structure TimersInv (s : LwtimerData) (done todo : ℕ → List ℕ) : Prop where
  queue : ∀ q ∈ s.lwtimers, QueueInv s q (done q) (todo q)
  valid : ∀ q, (s.queue q).valid = true ↔ q ∈ s.lwtimers
  headers : ∀ q ∈ s.lwtimers, ∀ t ∈ done q ++ todo q, t ∉ s.lwtimers
  owner : ∀ q ∈ s.lwtimers, ∀ t ∈ done q ++ todo q, s.periodPtr t = q
  registered : ∀ t, s.valid t = true ↔ ∃ q ∈ s.lwtimers, t ∈ done q ++ todo q
  phase : PhaseInv s done todo

/-- How a step treats the two parts of every queue. -/
structure Tracks (e : TimerEvent) (done todo done' todo' : ℕ → List ℕ) : Prop where
  stays : ∀ q t, t ∈ done q ++ todo q → e ≠ .cancel t → t ∈ done' q ++ todo' q
  passes : ∀ q t, t ∈ done q ++ todo q → e ≠ .cancel t → e ≠ .endPeriod q →
    (t ∈ done' q ↔ t ∈ done q ∨ e = .call q t)
  once : ∀ q t, e = .call q t → t ∉ done q
  ends : ∀ q t, e = .endPeriod q → t ∈ done q ++ todo q → t ∈ done q

variable {s s' : LwtimerData} {q t : ℕ} {done todo : List ℕ}

/-! ## Places -/

theorem goesOn_headD (s : LwtimerData) (q : ℕ) (todo : List ℕ) :
    GoesOn s q todo (todo.headD q) := by
  cases todo with
  | nil => exact ⟨fun t l h => by simp at h, fun _ => Or.inl rfl⟩
  | cons u l =>
    constructor
    · intro t l' h _
      exact (List.cons.inj h).1
    · intro h
      exact Or.inr (h u l rfl)

/-- The header and the passed timers end in the last of them. -/
theorem cons_eq_concat (q : ℕ) (done : List ℕ) :
    ∃ a, q :: done = a ++ [done.getLastD q] := by
  rcases List.eq_nil_or_concat done with rfl | ⟨l, t, rfl⟩
  · exact ⟨[], rfl⟩
  · refine ⟨q :: l, ?_⟩
    rw [List.concat_eq_append, List.getLastD_concat]
    rfl

theorem ring_split (q : ℕ) (done todo : List ℕ) :
    ∃ a, q :: (done ++ todo) = a ++ done.getLastD q :: todo := by
  obtain ⟨a, ha⟩ := cons_eq_concat q done
  refine ⟨a, ?_⟩
  rw [← List.cons_append, ha, List.append_assoc]
  rfl

theorem expiry_le_nextOffset (s : LwtimerData) (q : ℕ) :
    (s.queue q).expiry ≤ s.nextOffset q := by
  unfold LwtimerData.nextOffset
  split <;> omega

theorem setQueue_queue_self {p : LwtimerPeriod} {ph : IsrPhase} :
    (s.setQueue q p ph).queue q = p :=
  Function.update_self _ _ _

theorem setQueue_queue_of_ne {q' : ℕ} {p : LwtimerPeriod} {ph : IsrPhase} (h : q' ≠ q) :
    (s.setQueue q p ph).queue q' = s.queue q' :=
  Function.update_of_ne h _ _

namespace QueueInv

variable (i : QueueInv s q done todo)

include i

/-- The handler starts with the first timer to come. -/
theorem next_ptr : s.links.next (s.queue q).timerPtr = todo.headD q := by
  obtain ⟨a, ha⟩ := ring_split q done todo
  rw [i.ptr]
  exact i.ring.next_eq ha

/-- What a queue depends on. -/
theorem mono (hn : ∀ x ∈ q :: (done ++ todo), s'.links.next x = s.links.next x)
    (hp : ∀ x ∈ q :: (done ++ todo), s'.links.prev x = s.links.prev x)
    (hq : s'.queue q = s.queue q)
    (hr : ∀ x ∈ done ++ todo, s'.relativeTicks x = s.relativeTicks x)
    (ho : s.nextOffset q ≤ s'.nextOffset q) : QueueInv s' q done todo := by
  constructor
  · exact i.ring.congr hn hp
  · rw [hq]
    exact i.size
  · exact i.size_lt
  · refine List.Pairwise.imp_of_mem ?_ i.sorted
    intro a b ha hb hab
    rw [hr a ha, hr b hb]
    exact hab
  · rw [hq]
    exact i.ptr
  · rw [hq]
    exact i.expiry
  · intro t ht
    rw [hr t ht, hq]
    exact i.lt_period t ht
  · intro t ht
    rw [hr t (List.mem_append_right _ ht), hq]
    exact i.todo_ge t ht
  · intro t ht
    rw [hr t (List.mem_append_left _ ht)]
    exact lt_of_lt_of_le (i.done_lt t ht) ho

/-- When the first timer to come is not due, none is. -/
theorem none_due (h : ∀ t l, todo = t :: l → (s.queue q).expiry < s.relativeTicks t) :
    ∀ t ∈ todo, (s.queue q).expiry < s.relativeTicks t := by
  intro t ht
  cases todo with
  | nil => exact absurd ht List.not_mem_nil
  | cons u l =>
    have hu := h u l rfl
    rcases List.mem_cons.mp ht with rfl | ht
    · exact hu
    · have hsort := (List.pairwise_append.mp i.sorted).2.1
      exact lt_of_lt_of_le hu ((List.pairwise_cons.mp hsort).1 t ht)

/-- The handler stores to the queue, and the border between the two parts moves. -/
theorem setQueue (p : LwtimerPeriod) (ph : IsrPhase) {done' todo' : List ℕ}
    (hlists : done' ++ todo' = done ++ todo) (hsize : p.size = (s.queue q).size)
    (hptr : p.timerPtr = done'.getLastD q) (hperiod : p.period = (s.queue q).period)
    (hexpiry : p.expiry < p.period) (htodo : ∀ t ∈ todo', p.expiry ≤ s.relativeTicks t)
    (hdone : ∀ t ∈ done', s.relativeTicks t < (s.setQueue q p ph).nextOffset q) :
    QueueInv (s.setQueue q p ph) q done' todo' := by
  have hself : (s.setQueue q p ph).queue q = p := setQueue_queue_self
  constructor
  · rw [hlists]
    exact i.ring
  · rw [hself, hlists, hsize]
    exact i.size
  · rw [hlists]
    exact i.size_lt
  · rw [hlists]
    exact i.sorted
  · rw [hself]
    exact hptr
  · rw [hself]
    exact hexpiry
  · rw [hself, hlists, hperiod]
    exact i.lt_period
  · rw [hself]
    exact htodo
  · exact hdone

end QueueInv

/-! ## Steps of the handler -/

section Offsets

variable (s)

theorem nextOffset_idle (h : s.phase = .idle) : s.nextOffset q = (s.queue q).expiry := by
  simp [LwtimerData.nextOffset, LwtimerData.Processing, h]

theorem nextOffset_visit {rest : List ℕ} (h : s.phase = .visit rest) :
    s.nextOffset q = (s.queue q).expiry := by
  simp [LwtimerData.nextOffset, LwtimerData.Processing, h]

theorem nextOffset_scan {q' cur : ℕ} {rest : List ℕ} (h : s.phase = .scan q' cur rest) :
    s.nextOffset q = if q' = q then (s.queue q).expiry + 1 else (s.queue q).expiry := by
  simp [LwtimerData.nextOffset, LwtimerData.Processing, h]

theorem nextOffset_running {q' t : ℕ} {rest : List ℕ} (h : s.phase = .running q' t rest) :
    s.nextOffset q = if q' = q then (s.queue q).expiry + 1 else (s.queue q).expiry := by
  simp [LwtimerData.nextOffset, LwtimerData.Processing, h]

end Offsets

namespace TimersInv

variable {done todo done' todo' : ℕ → List ℕ}

/-- Steps of the handler leave the timers where they are. -/
theorem isr (i : TimersInv s done todo) (hlists : ∀ q, done' q ++ todo' q = done q ++ todo q)
    (hlw : s'.lwtimers = s.lwtimers) (hv : s'.valid = s.valid) (hpp : s'.periodPtr = s.periodPtr)
    (hqv : ∀ q, (s'.queue q).valid = (s.queue q).valid)
    (hqueue : ∀ q ∈ s.lwtimers, QueueInv s' q (done' q) (todo' q))
    (hphase : PhaseInv s' done' todo') : TimersInv s' done' todo' := by
  constructor
  · rw [hlw]
    exact hqueue
  · intro q
    rw [hqv, hlw]
    exact i.valid q
  · intro q hq t ht
    rw [hlw] at hq ⊢
    rw [hlists] at ht
    exact i.headers q hq t ht
  · intro q hq t ht
    rw [hlw] at hq
    rw [hlists] at ht
    rw [hpp]
    exact i.owner q hq t ht
  · intro t
    rw [hv, hlw, i.registered]
    simp only [hlists]
  · exact hphase

/-- A step that no timer is concerned in. -/
theorem tracks_same {e : TimerEvent} (hcall : ∀ q t, e ≠ .call q t)
    (hend : ∀ q, e ≠ .endPeriod q) : Tracks e done todo done todo where
  stays _ _ h _ := h
  passes q t _ _ _ := by simp [hcall q t]
  once q t h := absurd h (hcall q t)
  ends q _ h := absurd h (hend q)

/-- The handler moves on and touches no queue. -/
theorem setPhase (i : TimersInv s done todo) {p : IsrPhase}
    (ho : ∀ q ∈ s.lwtimers, s.nextOffset q ≤ LwtimerData.nextOffset { s with phase := p } q)
    (hphase : PhaseInv { s with phase := p } done todo) :
    TimersInv { s with phase := p } done todo :=
  i.isr (fun _ => rfl) rfl rfl rfl (fun _ => rfl)
    (fun q hq => (i.queue q hq).mono (fun _ _ => rfl) (fun _ _ => rfl) rfl (fun _ _ => rfl)
      (ho q hq)) hphase

theorem tracks_internal : Tracks .internal done todo done todo :=
  tracks_same (fun _ _ h => nomatch h) (fun _ h => nomatch h)

theorem setQueue (i : TimersInv s done todo) (p : LwtimerPeriod) (ph : IsrPhase)
    {done₁ todo₁ : List ℕ} (hlists : done₁ ++ todo₁ = done q ++ todo q)
    (hvalid : p.valid = (s.queue q).valid)
    (hothers : ∀ q', q' ≠ q → s.nextOffset q' ≤ (s.setQueue q p ph).nextOffset q')
    (hq : q ∈ s.lwtimers → QueueInv (s.setQueue q p ph) q done₁ todo₁)
    (hphase : PhaseInv (s.setQueue q p ph) (Function.update done q done₁)
      (Function.update todo q todo₁)) :
    TimersInv (s.setQueue q p ph) (Function.update done q done₁)
      (Function.update todo q todo₁) := by
  refine i.isr ?_ rfl rfl rfl ?_ ?_ hphase
  · intro q'
    by_cases h : q' = q
    · subst h
      rw [Function.update_self, Function.update_self, hlists]
    · rw [Function.update_of_ne h, Function.update_of_ne h]
  · intro q'
    by_cases h : q' = q
    · subst h
      rw [setQueue_queue_self, hvalid]
    · rw [setQueue_queue_of_ne h]
  · intro q' hq'
    by_cases h : q' = q
    · subst h
      rw [Function.update_self, Function.update_self]
      exact hq hq'
    · rw [Function.update_of_ne h, Function.update_of_ne h]
      exact (i.queue q' hq').mono (fun _ _ => rfl) (fun _ _ => rfl)
        (setQueue_queue_of_ne h) (fun _ _ => rfl) (hothers q' h)

/-- The next queue is visited. -/
theorem visit_cons (i : TimersInv s done todo) {rest : List ℕ}
    (hp : s.phase = .visit (q :: rest)) :
    TimersInv s.isrStep.2 done todo ∧ s.isrStep.1 = .internal := by
  have hph := i.phase
  unfold PhaseInv at hph
  rw [hp] at hph
  have hq : q ∈ s.lwtimers := hph List.mem_cons_self
  have hrest : rest ⊆ s.lwtimers := fun x hx => hph (List.mem_cons_of_mem _ hx)
  have hi := i.queue q hq
  unfold LwtimerData.isrStep
  rw [hp]
  simp only
  split
  · refine ⟨?_, rfl⟩
    have hinv := i.setQueue { s.queue q with wait := (s.queue q).wait - 1 } (.visit rest)
      (rfl : done q ++ todo q = _) rfl ?_ ?_ ?_
    · simpa only [Function.update_eq_self] using hinv
    · intro q' hne
      rw [nextOffset_visit _ hp, nextOffset_visit _ rfl, setQueue_queue_of_ne hne]
    · intro _
      apply hi.setQueue
      · rfl
      · rfl
      · exact hi.ptr
      · rfl
      · exact hi.expiry
      · exact hi.todo_ge
      · intro t ht
        have hlt := hi.done_lt t ht
        rw [nextOffset_visit _ hp] at hlt
        rw [nextOffset_visit _ rfl, setQueue_queue_self]
        exact hlt
    · exact hrest
  · refine ⟨i.setPhase ?_ ?_, rfl⟩
    · intro p _
      rw [nextOffset_visit _ hp, nextOffset_scan _ rfl]
      split
      · exact Nat.le_succ _
      · exact le_rfl
    · refine ⟨hq, hrest, ?_⟩
      rw [hi.next_ptr]
      exact goesOn_headD _ _ _

/-- The first timer to come is due. -/
theorem due_of_call (i : TimersInv s done todo) {cur : ℕ} {rest : List ℕ}
    (hp : s.phase = .scan q cur rest)
    (hc : cur ≠ q ∧ ¬s.relativeTicks cur > (s.queue q).expiry) :
    ∃ l, todo q = cur :: l ∧ s.relativeTicks cur = (s.queue q).expiry := by
  have hph := i.phase
  unfold PhaseInv at hph
  rw [hp] at hph
  obtain ⟨hq, _, hgo⟩ := hph
  have hi := i.queue q hq
  have hdue : ¬∀ t l, todo q = t :: l → (s.queue q).expiry < s.relativeTicks t := by
    intro hnone
    rcases hgo.stop hnone with h | h
    · exact hc.1 h
    · exact hc.2 h
  push Not at hdue
  obtain ⟨t, l, hl, hle⟩ := hdue
  have hcur : cur = t := hgo.due t l hl hle
  subst hcur
  refine ⟨l, hl, ?_⟩
  have hge := hi.todo_ge cur (by rw [hl]; exact List.mem_cons_self)
  omega

/-- The handler calls the function of the first timer to come. -/
theorem call (i : TimersInv s done todo) {cur : ℕ} {rest l : List ℕ}
    (hp : s.phase = .scan q cur rest) (hl : todo q = cur :: l)
    (heq : s.relativeTicks cur = (s.queue q).expiry) :
    TimersInv (s.setQueue q { s.queue q with timerPtr := cur } (.running q cur rest))
      (Function.update done q (done q ++ [cur])) (Function.update todo q l) := by
  have hph := i.phase
  unfold PhaseInv at hph
  rw [hp] at hph
  obtain ⟨hq, hrest, _⟩ := hph
  have hi := i.queue q hq
  have hmem : cur ∈ done q ++ todo q := by
    rw [hl]
    exact List.mem_append_right _ List.mem_cons_self
  apply i.setQueue
  · rw [hl, List.append_assoc]
    rfl
  · rfl
  · intro q' hne
    rw [nextOffset_scan _ hp, nextOffset_running _ rfl, setQueue_queue_of_ne hne]
  · intro _
    apply hi.setQueue
    · rw [hl, List.append_assoc]
      rfl
    · rfl
    · rw [List.getLastD_concat]
    · rfl
    · exact hi.expiry
    · intro t ht
      exact hi.todo_ge t (by rw [hl]; exact List.mem_cons_of_mem _ ht)
    · intro t ht
      rw [nextOffset_running _ rfl, setQueue_queue_self, if_pos rfl]
      rcases List.mem_append.mp ht with ht | ht
      · have hlt := hi.done_lt t ht
        rw [nextOffset_scan _ hp, if_pos rfl] at hlt
        exact hlt
      · rw [List.mem_singleton.mp ht, heq]
        exact Nat.lt_succ_self _
  · refine ⟨hq, hrest, i.headers q hq cur hmem, RunsOn.last ?_⟩
    rw [Function.update_self, List.getLast?_concat]

/-- Nothing is due any more. -/
theorem none_due (i : TimersInv s done todo) {cur : ℕ} {rest : List ℕ}
    (hp : s.phase = .scan q cur rest)
    (hc : ¬(cur ≠ q ∧ ¬s.relativeTicks cur > (s.queue q).expiry)) :
    ∀ t ∈ todo q, (s.queue q).expiry < s.relativeTicks t := by
  have hph := i.phase
  unfold PhaseInv at hph
  rw [hp] at hph
  obtain ⟨hq, _, hgo⟩ := hph
  have hi := i.queue q hq
  apply hi.none_due
  intro t l hl
  by_contra hle
  have hcur : cur = t := hgo.due t l hl (not_lt.mp hle)
  apply hc
  constructor
  · rintro rfl
    have hnd := (List.nodup_cons.mp hi.ring.nodup).1
    apply hnd
    rw [hl, ← hcur]
    exact List.mem_append_right _ List.mem_cons_self
  · rw [hcur]
    exact hle

/-- The tick of a queue ends inside its period. -/
theorem endTick (i : TimersInv s done todo) {cur : ℕ} {rest : List ℕ}
    (hp : s.phase = .scan q cur rest)
    (hnone : ∀ t ∈ todo q, (s.queue q).expiry < s.relativeTicks t)
    (hper : (s.queue q).expiry + 1 ≠ (s.queue q).period) :
    TimersInv (s.setQueue q { s.queue q with expiry := (s.queue q).expiry + 1 } (.visit rest))
      done todo := by
  have hph := i.phase
  unfold PhaseInv at hph
  rw [hp] at hph
  obtain ⟨hq, hrest, _⟩ := hph
  have hi := i.queue q hq
  have hinv := i.setQueue { s.queue q with expiry := (s.queue q).expiry + 1 } (.visit rest)
    (rfl : done q ++ todo q = _) rfl ?_ ?_ ?_
  · simpa only [Function.update_eq_self] using hinv
  · intro q' hne
    rw [nextOffset_scan _ hp, nextOffset_visit _ rfl, setQueue_queue_of_ne hne, if_neg hne.symm]
  · intro _
    apply hi.setQueue
    · rfl
    · rfl
    · exact hi.ptr
    · rfl
    · exact lt_of_le_of_ne hi.expiry hper
    · exact hnone
    · intro t ht
      have hlt := hi.done_lt t ht
      rw [nextOffset_scan _ hp, if_pos rfl] at hlt
      rw [nextOffset_visit _ rfl, setQueue_queue_self]
      exact hlt
  · exact hrest

/-- At the end of a period every timer has been passed. -/
theorem todo_nil (i : TimersInv s done todo) (hq : q ∈ s.lwtimers)
    (hnone : ∀ t ∈ todo q, (s.queue q).expiry < s.relativeTicks t)
    (hper : (s.queue q).expiry + 1 = (s.queue q).period) : todo q = [] := by
  apply List.eq_nil_iff_forall_not_mem.mpr
  intro t ht
  have hlt := (i.queue q hq).lt_period t (List.mem_append_right _ ht)
  have hgt := hnone t ht
  omega

/-- The period of a queue ends. -/
theorem endPeriod (i : TimersInv s done todo) {cur : ℕ} {rest : List ℕ}
    (hp : s.phase = .scan q cur rest) (htodo : todo q = []) :
    TimersInv (s.setQueue q { s.queue q with expiry := 0, timerPtr := q } (.visit rest))
      (Function.update done q []) (Function.update todo q (done q)) := by
  have hph := i.phase
  unfold PhaseInv at hph
  rw [hp] at hph
  obtain ⟨hq, hrest, _⟩ := hph
  have hi := i.queue q hq
  apply i.setQueue
  · rw [htodo, List.append_nil]
    rfl
  · rfl
  · intro q' hne
    rw [nextOffset_scan _ hp, nextOffset_visit _ rfl, setQueue_queue_of_ne hne, if_neg hne.symm]
  · intro _
    apply hi.setQueue
    · rw [htodo, List.append_nil]
      rfl
    · rfl
    · rfl
    · rfl
    · exact lt_of_le_of_lt (Nat.zero_le _) hi.expiry
    · intro t _
      exact Nat.zero_le _
    · intro t ht
      exact absurd ht List.not_mem_nil
  · exact hrest

/-- The timer function returns. -/
theorem returned (i : TimersInv s done todo) {rest : List ℕ}
    (hp : s.phase = .running q t rest) :
    TimersInv { s with phase := .scan q (s.links.next t) rest } done todo := by
  have hph := i.phase
  unfold PhaseInv at hph
  rw [hp] at hph
  obtain ⟨hq, hrest, _, hruns⟩ := hph
  have hi := i.queue q hq
  apply i.setPhase
  · intro q' _
    rw [nextOffset_running _ hp, nextOffset_scan _ rfl]
  · refine ⟨hq, hrest, ?_⟩
    cases hruns with
    | last hlast =>
      have hptr := hi.next_ptr
      rw [hi.ptr, List.getLastD_eq_getLast?, hlast, Option.getD_some] at hptr
      rw [hptr]
      exact goesOn_headD _ _ _
    | again ht hnone =>
      obtain ⟨a, b, hab⟩ := List.append_of_mem ht
      have hnext : s.links.next t = b.headD q := by
        apply hi.ring.next_eq (a := q :: (done q ++ a))
        rw [hab]
        simp
      constructor
      · intro u l hl hle
        have hlt := hnone u (by rw [hl]; exact List.mem_cons_self)
        exact absurd hle (not_le.mpr hlt)
      · intro _
        rw [hnext]
        cases b with
        | nil => exact Or.inl rfl
        | cons u b => exact Or.inr (hnone u (by rw [hab]; simp))
    | cancelled _ hgo => exact ⟨hgo.due, hgo.stop⟩

theorem tracks_call {cur : ℕ} {l : List ℕ} (hl : todo q = cur :: l)
    (hnew : cur ∉ done q) :
    Tracks (.call q cur) done todo (Function.update done q (done q ++ [cur]))
      (Function.update todo q l) := by
  constructor
  · intro q' t ht _
    by_cases h : q' = q
    · subst h
      rw [Function.update_self, Function.update_self, List.append_assoc]
      rw [hl] at ht
      exact ht
    · rw [Function.update_of_ne h, Function.update_of_ne h]
      exact ht
  · intro q' t _ _ _
    by_cases h : q' = q
    · subst h
      simp [eq_comm]
    · rw [Function.update_of_ne h]
      simp [Ne.symm h]
  · intro q' t he
    cases he
    exact hnew
  · intro q' t he
    cases he

theorem tracks_endPeriod (htodo : todo q = []) :
    Tracks (.endPeriod q) done todo (Function.update done q [])
      (Function.update todo q (done q)) := by
  constructor
  · intro q' t ht _
    by_cases h : q' = q
    · subst h
      rw [Function.update_self, Function.update_self]
      rw [htodo, List.append_nil] at ht
      exact ht
    · rw [Function.update_of_ne h, Function.update_of_ne h]
      exact ht
  · intro q' t _ _ hne
    have h : q' ≠ q := by
      rintro rfl
      exact hne rfl
    rw [Function.update_of_ne h]
    simp
  · intro q' t he
    cases he
  · intro q' t he ht
    cases he
    rw [htodo, List.append_nil] at ht
    exact ht

/-- What one step of the handler does. -/
theorem isrStep (i : TimersInv s done todo) :
    ∃ done' todo', TimersInv s.isrStep.2 done' todo' ∧
      Tracks s.isrStep.1 done todo done' todo' := by
  obtain ⟨ph, hp⟩ : ∃ ph, s.phase = ph := ⟨_, rfl⟩
  cases ph with
  | idle =>
    refine ⟨done, todo, ?_, ?_⟩ <;> rw [LwtimerData.isrStep, hp]
    · apply i.setPhase
      · intro q _
        rw [nextOffset_idle _ hp, nextOffset_visit _ rfl]
      · exact List.Subset.refl _
    · exact tracks_internal
  | visit rest =>
    cases rest with
    | nil =>
      refine ⟨done, todo, ?_, ?_⟩ <;> rw [LwtimerData.isrStep, hp]
      · apply i.setPhase
        · intro q _
          rw [nextOffset_visit _ hp, nextOffset_idle _ rfl]
        · trivial
      · exact tracks_internal
    | cons q rest =>
      obtain ⟨hinv, he⟩ := i.visit_cons hp
      refine ⟨done, todo, hinv, ?_⟩
      rw [he]
      exact tracks_internal
  | scan q cur rest =>
    have hph := i.phase
    unfold PhaseInv at hph
    rw [hp] at hph
    have hnodup := (i.queue q hph.1).ring.nodup
    unfold LwtimerData.isrStep
    rw [hp]
    simp only
    split
    · next hc =>
      obtain ⟨l, hl, heq⟩ := i.due_of_call hp hc
      refine ⟨_, _, i.call hp hl heq, tracks_call hl ?_⟩
      rw [hl] at hnodup
      intro hmem
      exact List.disjoint_of_nodup_append (List.nodup_cons.mp hnodup).2 hmem List.mem_cons_self
    · next hc =>
      have hnone := i.none_due hp hc
      split
      · next hper =>
        have htodo := i.todo_nil hph.1 hnone hper
        exact ⟨_, _, i.endPeriod hp htodo, tracks_endPeriod htodo⟩
      · next hper =>
        exact ⟨_, _, i.endTick hp hnone hper,
          tracks_same (fun _ _ h => nomatch h) (fun _ h => nomatch h)⟩
  | running q t rest =>
    refine ⟨done, todo, ?_, ?_⟩ <;> rw [LwtimerData.isrStep, hp]
    · exact i.returned hp
    · exact tracks_internal

end TimersInv

end Mqx.Lw
