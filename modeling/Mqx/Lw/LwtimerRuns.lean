import Mqx.Lw.LwtimerCancel

/-!
# Every timer once in a period

Every step keeps the invariant of the queues and moves timers from those to come to those
that are passed only by calling them. So every timer is called at its offset, once in a
period.
-/

namespace Mqx.Lw

open PointerList

variable {s s' : LwtimerData} {q t : ℕ} {done todo : ℕ → List ℕ}

/-- What one step does. -/
theorem TimersInv.act (i : TimersInv s done todo) {a : TimerAction} (hallowed : s.Allowed a)
    (hfits : s.Fits a) :
    ∃ done' todo', TimersInv (s.act a).2 done' todo' ∧
      Tracks (s.act a).1 done todo done' todo' := by
  cases a with
  | isr => exact i.isrStep
  | add q t ticks =>
    rcases added_or_refused s q t ticks with ⟨hok, ha⟩ | hsame
    · exact ha.timersInv i hallowed (hfits hok)
    · refine ⟨done, todo, ?_, TimersInv.tracks_same (fun _ _ h => nomatch h)
        (fun _ h => nomatch h)⟩
      rw [LwtimerData.act, hsame]
      exact i
  | cancel t =>
    rcases cancelled_or_refused s t with ⟨hok, hc⟩ | hsame
    · exact hc.timersInv i hallowed (hfits hok)
    · refine ⟨done, todo, ?_, TimersInv.tracks_same (fun _ _ h => nomatch h)
        (fun _ h => nomatch h)⟩
      rw [LwtimerData.act, hsame]
      exact i

theorem TimersInv.run {l : List TimerEvent} (hrun : TimerRun LwtimerData.Fits s l s')
    (i : TimersInv s done todo) : ∃ done' todo', TimersInv s' done' todo' := by
  induction hrun generalizing done todo with
  | nil => exact ⟨done, todo, i⟩
  | cons a hallowed hfits _ ih =>
    obtain ⟨_, _, i', _⟩ := i.act hallowed hfits
    exact ih i'

/-- From here to the end of the period, a registered timer is called once if it is still to
come, and not any more if it is passed. -/
theorem TimersInv.count_call {l : List TimerEvent} (i : TimersInv s done todo)
    (hrun : TimerRun LwtimerData.Fits s (l ++ [.endPeriod q]) s') (hend : .endPeriod q ∉ l)
    (hcancel : .cancel t ∉ l) (ht : t ∈ done q ++ todo q) :
    l.count (.call q t) = if t ∈ done q then 0 else 1 := by
  induction l generalizing s done todo with
  | nil =>
    obtain ⟨e, he⟩ : ∃ e, [] ++ [TimerEvent.endPeriod q] = e := ⟨_, rfl⟩
    rw [he] at hrun
    cases hrun with
    | nil => simp at he
    | cons a hallowed hfits _ =>
      obtain ⟨_, _, _, htr⟩ := i.act hallowed hfits
      rw [if_pos (htr.ends q t (List.cons.inj he).1.symm ht), List.count_nil]
  | cons e l ih =>
    obtain ⟨e', he⟩ : ∃ e', (e :: l) ++ [TimerEvent.endPeriod q] = e' := ⟨_, rfl⟩
    rw [he] at hrun
    cases hrun with
    | nil => simp at he
    | cons a hallowed hfits hrun =>
      obtain ⟨heq, hrest⟩ := List.cons.inj he
      obtain ⟨done', todo', i', htr⟩ := i.act hallowed hfits
      rw [← heq] at htr
      rw [← hrest] at hrun
      have hne : e ≠ .cancel t := fun h => hcancel (h ▸ List.mem_cons_self)
      have hne' : e ≠ .endPeriod q := fun h => hend (h ▸ List.mem_cons_self)
      have hcount := ih i' hrun (fun h => hend (List.mem_cons_of_mem _ h))
        (fun h => hcancel (List.mem_cons_of_mem _ h)) (htr.stays q t ht hne)
      have hpasses := htr.passes q t ht hne hne'
      rw [List.count_cons, hcount]
      by_cases hcall : e = .call q t
      · rw [if_pos (hpasses.mpr (Or.inr hcall)), if_neg (htr.once q t hcall), hcall]
        simp
      · have hiff : t ∈ done' q ↔ t ∈ done q := by
          rw [hpasses]
          exact or_iff_left hcall
        simp [hiff, hcall]

/-- Nothing is passed when a period begins. -/
theorem TimersInv.done_nil (i : TimersInv s done todo) (hq : q ∈ s.lwtimers)
    (hbegin : s.PeriodBegins q) : done q = [] := by
  apply List.eq_nil_iff_forall_not_mem.mpr
  intro t ht
  have hlt := (i.queue q hq).done_lt t ht
  rw [LwtimerData.nextOffset, if_neg hbegin.2, hbegin.1] at hlt
  exact absurd hlt (Nat.not_lt_zero _)

theorem TimersInv.calledOnTime (i : TimersInv s done todo) : s.CalledOnTime := by
  intro q t hcall
  obtain ⟨ph, hp⟩ : ∃ ph, s.phase = ph := ⟨_, rfl⟩
  unfold LwtimerData.isrStep at hcall
  rw [hp] at hcall
  cases ph with
  | idle => cases hcall
  | visit rest =>
    cases rest with
    | nil => cases hcall
    | cons q' rest =>
      simp only at hcall
      split at hcall <;> cases hcall
  | scan q' cur rest =>
    simp only at hcall
    split at hcall
    · next hc =>
      cases hcall
      obtain ⟨_, _, heq⟩ := i.due_of_call hp hc
      exact heq.symm
    · split at hcall <;> cases hcall
  | running => cases hcall

theorem TimersInv.calledOnce (i : TimersInv s done todo) :
    CalledOnce LwtimerData.Fits s := by
  intro q t l s' hbegin hvalid hown hrun hend hcancel
  obtain ⟨q', hq', ht⟩ := (i.registered t).mp hvalid
  have heq : q' = q := by
    rw [← hown, i.owner q' hq' t ht]
  subst heq
  have hcount := i.count_call hrun hend hcancel ht
  rw [i.done_nil hq' hbegin] at hcount
  rw [hcount, if_neg List.not_mem_nil]

/-- Empty queues. -/
theorem LwtimerReady.timersInv (h : LwtimerReady s) :
    TimersInv s (fun _ => []) (fun _ => []) ∧ s.phase = .idle ∧ ∀ t, s.valid t = false := by
  induction h with
  | boot s hlw hqv hv hp =>
    refine ⟨⟨?_, ?_, ?_, ?_, ?_, ?_⟩, hp, hv⟩
    · simp [hlw]
    · simp [hlw, hqv]
    · simp [hlw]
    · simp [hlw]
    · simp [hlw, hv]
    · unfold PhaseInv
      rw [hp]
      trivial
  | @create s q period waitTicks _ hq hper ih =>
    obtain ⟨i, hp, hv⟩ := ih
    have hp' : (s.lwtimerCreatePeriodicQueue q period waitTicks).phase = .idle := hp
    have hlw : (s.lwtimerCreatePeriodicQueue q period waitTicks).lwtimers = s.lwtimers ++ [q] :=
      rfl
    have hself : (s.lwtimerCreatePeriodicQueue q period waitTicks).queue q =
        ⟨period, 0, waitTicks, q, 0, true⟩ := Function.update_self _ _ _
    have hother : ∀ q', q' ≠ q →
        (s.lwtimerCreatePeriodicQueue q period waitTicks).queue q' = s.queue q' :=
      fun q' hne => Function.update_of_ne hne _ _
    refine ⟨⟨?_, ?_, ?_, ?_, ?_, ?_⟩, hp', hv⟩
    · intro q' hq'
      by_cases h : q' = q
      · subst h
        constructor
        · refine ⟨⟨rfl, Function.update_self _ _ _⟩, ⟨Function.update_self _ _ _, trivial⟩, ?_⟩
          exact List.nodup_singleton q'
        · rw [hself]
          rfl
        · decide
        · exact List.Pairwise.nil
        · rw [hself]
          rfl
        · rw [hself]
          exact hper
        · simp
        · simp
        · simp
      · rw [hlw] at hq'
        have hq'' : q' ∈ s.lwtimers := by simpa [h] using hq'
        apply (i.queue q' hq'').mono
        · intro x hx
          rw [List.mem_singleton.mp hx]
          exact Function.update_of_ne h _ _
        · intro x hx
          rw [List.mem_singleton.mp hx]
          exact Function.update_of_ne h _ _
        · exact hother q' h
        · exact fun _ _ => rfl
        · rw [nextOffset_idle _ hp, nextOffset_idle _ hp', hother q' h]
    · intro q'
      rw [hlw]
      by_cases h : q' = q
      · rw [h, hself]
        simp
      · rw [hother q' h, i.valid]
        simp [h]
    · simp
    · simp
    · intro t
      have hvt : (s.lwtimerCreatePeriodicQueue q period waitTicks).valid t = false := hv t
      rw [hvt]
      simp
    · unfold PhaseInv
      rw [hp']
      trivial

/-- In a run whose calls all fit, every timer is called at its offset and once in every
period that it is registered in. -/
theorem called_on_time_once_a_period {s₀ : LwtimerData} {l : List TimerEvent}
    (h₀ : LwtimerReady s₀) (hrun : TimerRun LwtimerData.Fits s₀ l s) :
    s.CalledOnTime ∧ CalledOnce LwtimerData.Fits s := by
  obtain ⟨_, _, i⟩ := h₀.timersInv.1.run hrun
  exact ⟨i.calledOnTime, i.calledOnce⟩

/-- The queue 1 of period `period`, and no timers. -/
def onePeriodicQueue (period : ℕ) : LwtimerData :=
  LwtimerData.lwtimerCreatePeriodicQueue
    { links := ⟨fun _ => 0, fun _ => 0⟩
      queue := fun _ => ⟨0, 0, 0, 0, 0, false⟩
      lwtimers := []
      relativeTicks := fun _ => 0
      valid := fun _ => false
      periodPtr := fun _ => 0
      phase := .idle } 1 period 0

theorem ready_onePeriodicQueue (period : ℕ) (h : 1 ≤ period) :
    LwtimerReady (onePeriodicQueue period) := by
  apply LwtimerReady.create
  · exact LwtimerReady.boot _ rfl (fun _ => rfl) (fun _ => rfl) rfl
  · exact List.not_mem_nil
  · exact h

/-- The timer 2 is added at the offset 0, and the handler comes to it. -/
def firstTick : LwtimerData :=
  ((((onePeriodicQueue 2).act (.add 1 2 0)).2.act .isr).2.act .isr).2

theorem called_on_time_once_a_period_first : firstTick.isrStep.1 = .call 1 2 ∧
    firstTick.CalledOnTime ∧ CalledOnce LwtimerData.Fits firstTick := by
  refine ⟨by decide, called_on_time_once_a_period (ready_onePeriodicQueue 2 (by decide))
    (.cons (.add 1 2 0) trivial ?_ (.cons .isr trivial trivial (.cons .isr trivial trivial
      (.nil _))))⟩
  intro _
  constructor
  · rfl
  · decide
  · decide
  · intro h
    exact absurd h (by decide)
  · rintro q' t' ⟨⟨rest, hp⟩, _⟩
    cases hp
  · rintro q' t' ⟨⟨rest, hp⟩, _⟩
    cases hp

/-- The queue has period 10 and its first tick is over; then the timer 2 is added at the
offset 0, and the handler comes to it. -/
def lateAdd : LwtimerData :=
  (((((((((onePeriodicQueue 10).act .isr).2.act .isr).2.act .isr).2.act .isr).2.act
    (.add 1 2 0)).2.act .isr).2.act .isr).2)

/-- The function of a timer that is added after its offset is called at once. -/
theorem late_timer_called_at_once : ¬∀ s₀ l s, LwtimerReady s₀ →
    TimerRun (fun _ _ => True) s₀ l s →
    s.CalledOnTime ∧ CalledOnce (fun _ _ => True) s := by
  intro h
  have hrun := h (onePeriodicQueue 10) _ lateAdd (ready_onePeriodicQueue 10 (by decide))
    (.cons .isr trivial trivial (.cons .isr trivial trivial (.cons .isr trivial trivial
      (.cons .isr trivial trivial (.cons (.add 1 2 0) trivial trivial
        (.cons .isr trivial trivial (.cons .isr trivial trivial (.nil _))))))))
  have hcall : lateAdd.isrStep.1 = .call 1 2 := by decide
  have hoff := hrun.1 1 2 hcall
  exact absurd hoff (by decide)

end Mqx.Lw
