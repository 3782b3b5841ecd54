import Mqx.Lw.LwtimerAdd

/-!
# Cancelling a timer

A timer is taken out of its queue, `TIMER_PTR` steps back when it was the last one passed,
and the handler that is in the function of the timer goes on along its old link.
-/

namespace Mqx.Lw

open PointerList

variable {s s' : LwtimerData} {q t : ℕ} {done todo done₁ todo₁ : List ℕ}

/-- What an accepted call of `_lwtimer_cancel_timer` does. -/
structure Cancelled (s : LwtimerData) (t : ℕ) (s' : LwtimerData) : Prop where
  registered : s.valid t = true
  valid : s'.valid = Function.update s.valid t false
  links : s'.links = s.links.unlink t
  queue : s'.queue = Function.update s.queue (s.periodPtr t) { s.queue (s.periodPtr t) with
    timerPtr := if t = (s.queue (s.periodPtr t)).timerPtr then s.links.prev t
      else (s.queue (s.periodPtr t)).timerPtr
    size := ((s.queue (s.periodPtr t)).size + (2 ^ 16 - 1)) % 2 ^ 16 }
  periodPtr : s'.periodPtr = s.periodPtr
  relativeTicks : s'.relativeTicks = s.relativeTicks
  lwtimers : s'.lwtimers = s.lwtimers
  phase : s'.phase = s.phase

theorem cancelled_or_refused (s : LwtimerData) (t : ℕ) :
    (s.lwtimerCancelTimer t).1 = .ok ∧ Cancelled s t (s.lwtimerCancelTimer t).2 ∨
    (s.lwtimerCancelTimer t).2 = s := by
  unfold LwtimerData.lwtimerCancelTimer
  split
  · exact Or.inr rfl
  · next hv =>
    split
    · exact Or.inr rfl
    · refine Or.inl ⟨rfl, ?_⟩
      exact ⟨eq_true_of_ne_false hv, rfl, rfl, rfl, rfl, rfl, rfl, rfl⟩

/-- The two parts of a queue before and after a timer is taken out. -/
inductive Taken (t : ℕ) (done todo : List ℕ) : List ℕ → List ℕ → Prop
  | passed (pre suf : List ℕ) (hdone : done = pre ++ t :: suf) :
      Taken t done todo (pre ++ suf) todo
  | coming (pre suf : List ℕ) (htodo : todo = pre ++ t :: suf) :
      Taken t done todo done (pre ++ suf)

theorem exists_taken (h : t ∈ done ++ todo) : ∃ done₁ todo₁, Taken t done todo done₁ todo₁ := by
  rcases List.mem_append.mp h with h | h
  · obtain ⟨pre, suf, hsplit⟩ := List.append_of_mem h
    exact ⟨_, _, .passed pre suf hsplit⟩
  · obtain ⟨pre, suf, hsplit⟩ := List.append_of_mem h
    exact ⟨_, _, .coming pre suf hsplit⟩

namespace Taken

variable {u : ℕ} (h : Taken t done todo done₁ todo₁)

include h

/-- The place of the timer in its ring. -/
theorem split (q : ℕ) : ∃ a p b, q :: (done ++ todo) = a ++ p :: t :: b ∧
    q :: (done₁ ++ todo₁) = a ++ p :: b := by
  cases h with
  | passed pre suf hdone =>
    obtain ⟨a, ha⟩ := cons_eq_concat q pre
    refine ⟨a, pre.getLastD q, suf ++ todo, ?_, ?_⟩
    · have hsplit : done ++ todo = pre ++ (t :: (suf ++ todo)) := by simp [hdone]
      rw [hsplit, ← List.cons_append, ha, List.append_assoc]
      rfl
    · rw [List.append_assoc, ← List.cons_append, ha, List.append_assoc]
      rfl
  | coming pre suf htodo =>
    obtain ⟨a, ha⟩ := cons_eq_concat q (done ++ pre)
    refine ⟨a, (done ++ pre).getLastD q, suf, ?_, ?_⟩
    · have hsplit : done ++ todo = (done ++ pre) ++ (t :: suf) := by simp [htodo]
      rw [hsplit, ← List.cons_append, ha, List.append_assoc]
      rfl
    · rw [← List.append_assoc, ← List.cons_append, ha, List.append_assoc]
      rfl

theorem done_sublist : done₁.Sublist done := by
  cases h with
  | passed pre suf hdone =>
    rw [hdone]
    exact (List.Sublist.refl pre).append (List.sublist_cons_self t suf)
  | coming => exact List.Sublist.refl _

theorem todo_sublist : todo₁.Sublist todo := by
  cases h with
  | passed => exact List.Sublist.refl _
  | coming pre suf htodo =>
    rw [htodo]
    exact (List.Sublist.refl pre).append (List.sublist_cons_self t suf)

theorem mem_done (hu : u ∈ done) (hne : u ≠ t) : u ∈ done₁ := by
  cases h with
  | passed pre suf hdone =>
    rw [hdone] at hu
    simp only [List.mem_append, List.mem_cons] at hu ⊢
    tauto
  | coming => exact hu

theorem mem_todo (hu : u ∈ todo) (hne : u ≠ t) : u ∈ todo₁ := by
  cases h with
  | passed => exact hu
  | coming pre suf htodo =>
    rw [htodo] at hu
    simp only [List.mem_append, List.mem_cons] at hu ⊢
    tauto

theorem mem_lists (hu : u ∈ done ++ todo) (hne : u ≠ t) : u ∈ done₁ ++ todo₁ := by
  rcases List.mem_append.mp hu with hu | hu
  · exact List.mem_append_left _ (h.mem_done hu hne)
  · exact List.mem_append_right _ (h.mem_todo hu hne)

theorem length : (done ++ todo).length = (done₁ ++ todo₁).length + 1 := by
  obtain ⟨a, p, b, hs, hs'⟩ := h.split 0
  have hlen := congrArg List.length hs
  have hlen' := congrArg List.length hs'
  simp only [List.length_cons, List.length_append] at hlen hlen' ⊢
  omega

theorem notMem (hnd : (done ++ todo).Nodup) : t ∉ done₁ ++ todo₁ := by
  cases h with
  | passed pre suf hdone =>
    rw [hdone, List.append_assoc, List.cons_append, List.nodup_middle] at hnd
    rw [List.append_assoc]
    exact (List.nodup_cons.mp hnd).1
  | coming pre suf htodo =>
    rw [htodo, ← List.append_assoc, List.nodup_middle] at hnd
    rw [← List.append_assoc]
    exact (List.nodup_cons.mp hnd).1

/-- `TIMER_PTR` steps back when its timer is taken out. -/
theorem ptr (w : s.links.Holds q (done ++ todo)) :
    (if t = done.getLastD q then s.links.prev t else done.getLastD q) = done₁.getLastD q := by
  have hnd := w.nodup
  cases h with
  | passed pre suf hdone =>
    rcases List.eq_nil_or_concat suf with rfl | ⟨l, z, rfl⟩
    · obtain ⟨a, ha⟩ := cons_eq_concat q pre
      rw [hdone, List.getLastD_concat, if_pos rfl, List.append_nil]
      apply w.prev_eq (a := a) (b := todo)
      rw [hdone, List.append_assoc, ← List.cons_append, ha, List.append_assoc]
      rfl
    · have hlast : done.getLastD q = z := by
        rw [hdone, List.concat_eq_append, ← List.cons_append, ← List.append_assoc,
          List.getLastD_concat]
      have hlast' : (pre ++ l.concat z).getLastD q = z := by
        rw [List.concat_eq_append, ← List.append_assoc, List.getLastD_concat]
      have hne : t ≠ z := by
        rintro rfl
        rw [hdone, List.append_assoc, List.cons_append] at hnd
        have hmid := List.nodup_middle.mp (List.nodup_cons.mp hnd).2
        exact (List.nodup_cons.mp hmid).1 (by simp)
      rw [hlast, hlast', if_neg hne]
  | coming pre suf htodo =>
    have hne : t ≠ done.getLastD q := by
      intro heq
      have hmem := List.getLastD_mem_cons (a := q) (l := done)
      rw [← heq] at hmem
      rw [htodo, ← List.cons_append] at hnd
      exact List.disjoint_of_nodup_append hnd hmem (by simp)
    rw [if_neg hne]

theorem getLast?_done {t₀ : ℕ} (hlast : done.getLast? = some t₀) (hne : t ≠ t₀) :
    done₁.getLast? = some t₀ := by
  cases h with
  | passed pre suf hdone =>
    rcases List.eq_nil_or_concat suf with rfl | ⟨l, z, rfl⟩
    · rw [hdone, List.getLast?_concat] at hlast
      exact absurd (Option.some.inj hlast) hne
    · rw [hdone] at hlast
      simpa [List.getLast?_append, List.getLast?_cons] using hlast
  | coming => exact hlast

/-- A queue that the handler works on along an old link. -/
theorem goesOn {cur : ℕ} (hsort : todo.Pairwise fun a b => s.relativeTicks a ≤ s.relativeTicks b)
    (hcur : t = cur → (s.queue q).expiry < s.relativeTicks t) (hgo : GoesOn s q todo cur) :
    GoesOn s q todo₁ cur := by
  cases h with
  | passed => exact hgo
  | coming pre suf htodo =>
    cases pre with
    | cons v pre =>
      constructor
      · intro u l hl hle
        have hv : v = u := (List.cons.inj hl).1
        subst hv
        exact hgo.due v (pre ++ t :: suf) htodo hle
      · intro hnone
        apply hgo.stop
        intro u l hl
        rw [htodo] at hl
        have hv : v = u := (List.cons.inj hl).1
        subst hv
        exact hnone v _ rfl
    | nil =>
      -- the first timer to come goes: it was not due, so none was
      have hlt : (s.queue q).expiry < s.relativeTicks t := by
        by_contra hle
        exact hle (hcur (hgo.due t suf htodo (not_lt.mp hle)).symm)
      constructor
      · intro u l hl hle
        rw [htodo] at hsort
        have hu := (List.pairwise_cons.mp hsort).1 u (by
          rw [List.nil_append] at hl
          rw [hl]
          exact List.mem_cons_self)
        omega
      · intro _
        apply hgo.stop
        intro u l hl
        rw [htodo] at hl
        have hu : t = u := (List.cons.inj hl).1
        rw [← hu]
        exact hlt

end Taken

namespace Cancelled

variable {q' : ℕ} (hc : Cancelled s t s')

include hc

theorem queue_self (hq : s.periodPtr t = q) : s'.queue q = { s.queue q with
    timerPtr := if t = (s.queue q).timerPtr then s.links.prev t else (s.queue q).timerPtr
    size := ((s.queue q).size + (2 ^ 16 - 1)) % 2 ^ 16 } := by
  rw [hc.queue, hq, Function.update_self]

theorem queue_of_ne (h : q' ≠ s.periodPtr t) : s'.queue q' = s.queue q' := by
  rw [hc.queue, Function.update_of_ne h]

theorem expiry (q' : ℕ) : (s'.queue q').expiry = (s.queue q').expiry := by
  by_cases h : q' = s.periodPtr t
  · rw [hc.queue_self h.symm]
  · rw [hc.queue_of_ne h]

theorem nextOffset (q' : ℕ) : s'.nextOffset q' = s.nextOffset q' :=
  nextOffset_congr hc.phase (hc.expiry q')

/-- The queue that loses the timer. -/
theorem queueInv (i : QueueInv s q done todo) (hq : s.periodPtr t = q)
    (htk : Taken t done todo done₁ todo₁) : QueueInv s' q done₁ todo₁ := by
  have hlen := htk.length
  have hlt := i.size_lt
  have hsub := htk.done_sublist.append htk.todo_sublist
  constructor
  · obtain ⟨a, p, b, hs, hs'⟩ := htk.split q
    rw [hc.links]
    exact i.ring.unlink hs hs'
  · rw [hc.queue_self hq]
    have hsize := i.size
    simp only
    omega
  · omega
  · rw [hc.relativeTicks]
    exact i.sorted.sublist hsub
  · rw [hc.queue_self hq]
    simp only [i.ptr]
    exact htk.ptr i.ring
  · rw [hc.queue_self hq]
    exact i.expiry
  · intro u hu
    rw [hc.queue_self hq, hc.relativeTicks]
    exact i.lt_period u (hsub.subset hu)
  · intro u hu
    rw [hc.expiry, hc.relativeTicks]
    exact i.todo_ge u (htk.todo_sublist.subset hu)
  · intro u hu
    rw [hc.nextOffset, hc.relativeTicks]
    exact i.done_lt u (htk.done_sublist.subset hu)

end Cancelled

namespace Cancelled

variable {done todo : ℕ → List ℕ}

/-- A timer function cancels a timer. -/
theorem runsOn (hc : Cancelled s t s') (i : TimersInv s done todo) (hq : q ∈ s.lwtimers)
    (hmem : t ∈ done q ++ todo q) (hf : s.CancelFits t)
    (htk : Taken t (done q) (todo q) done₁ todo₁)
    {q₀ t₀ : ℕ} {rest : List ℕ} (hp : s.phase = .running q₀ t₀ rest) (hq₀ : q₀ ∈ s.lwtimers)
    (ht₀ : t₀ ∉ s.lwtimers) (hruns : RunsOn s q₀ t₀ (done q₀) (todo q₀)) :
    RunsOn s' q₀ t₀ (Function.update done q done₁ q₀) (Function.update todo q todo₁ q₀) := by
  have hi := i.queue q hq
  have hgone : s'.valid t = false := by
    rw [hc.valid, Function.update_self]
  -- the link of a timer that is taken out stays what it was
  have hold : s'.links.next t = s.links.next t := by
    rw [hc.links]
    apply Links.unlink_next_of_ne
    obtain ⟨a, p, b, hs, _⟩ := htk.split q
    rw [hi.ring.prev_eq hs]
    rintro rfl
    have hnd := hi.ring.nodup
    rw [hs, List.nodup_middle] at hnd
    exact (List.nodup_cons.mp hnd).1 (by simp)
  have hqof : ∀ q', q' ∈ s.lwtimers → t ∈ done q' ++ todo q' → q' = q := by
    intro q' hq' ht'
    rw [← i.owner q hq t hmem, i.owner q' hq' t ht']
  cases hruns with
  | last hlast =>
    by_cases hself : t = t₀
    · subst hself
      have hdone := List.mem_of_getLast? hlast
      have heq := hqof q₀ hq₀ (List.mem_append_left _ hdone)
      subst heq
      apply RunsOn.cancelled hgone
      have hptr := hi.next_ptr
      rw [hi.ptr, List.getLastD_eq_getLast?, hlast, Option.getD_some] at hptr
      rw [hold, hptr, Function.update_self]
      have hsame : todo₁ = todo q₀ := by
        cases htk with
        | passed => rfl
        | coming pre suf htodo =>
          have hnd := (List.nodup_cons.mp hi.ring.nodup).2
          refine absurd ?_ (List.disjoint_of_nodup_append hnd hdone)
          rw [htodo]
          simp
      rw [hsame]
      exact goesOn_headD _ _ _
    · apply RunsOn.last
      by_cases h : q₀ = q
      · subst h
        rw [Function.update_self]
        exact htk.getLast?_done hlast hself
      · rw [Function.update_of_ne h]
        exact hlast
  | again hcome hnone =>
    by_cases hself : t = t₀
    · subst hself
      have heq := hqof q₀ hq₀ (List.mem_append_right _ hcome)
      subst heq
      apply RunsOn.cancelled hgone
      rw [hold, Function.update_self]
      obtain ⟨pre, suf, htodo⟩ := List.append_of_mem hcome
      have hnext : s.links.next t = suf.headD q₀ := by
        apply hi.ring.next_eq (a := q₀ :: (done q₀ ++ pre))
        rw [htodo]
        simp
      rw [hnext]
      constructor
      · intro u l hl hle
        rw [hc.expiry, hc.relativeTicks] at hle
        have hu := hnone u (htk.todo_sublist.subset (by rw [hl]; exact List.mem_cons_self))
        omega
      · intro _
        rw [hc.expiry, hc.relativeTicks]
        cases suf with
        | nil => exact Or.inl rfl
        | cons u suf => exact Or.inr (hnone u (by rw [htodo]; simp))
    · by_cases h : q₀ = q
      · subst h
        rw [Function.update_self, Function.update_self]
        refine RunsOn.again (htk.mem_todo hcome (Ne.symm hself)) ?_
        intro u hu
        rw [hc.expiry, hc.relativeTicks]
        exact hnone u (htk.todo_sublist.subset hu)
      · rw [Function.update_of_ne h, Function.update_of_ne h]
        refine RunsOn.again hcome ?_
        intro u hu
        rw [hc.expiry, hc.relativeTicks]
        exact hnone u hu
  | cancelled hv hgo =>
    have hself : t₀ ≠ t := by
      rintro rfl
      rw [hc.registered] at hv
      exact absurd hv (by decide)
    have hlink : s'.links.next t₀ = s.links.next t₀ := by
      rw [hc.links]
      apply Links.unlink_next_of_ne
      intro heq
      have hprev := hi.ring.prev_mem (List.mem_cons_of_mem q hmem)
      rw [← heq] at hprev
      rcases List.mem_cons.mp hprev with rfl | hprev
      · exact ht₀ hq
      · exact i.not_registered hv hq hprev
    apply RunsOn.cancelled
    · rw [hc.valid, Function.update_of_ne hself]
      exact hv
    · rw [hlink]
      have hgo' : GoesOn s q₀ (Function.update todo q todo₁ q₀) (s.links.next t₀) := by
        by_cases h : q₀ = q
        · subst h
          rw [Function.update_self]
          have hsort := (List.pairwise_append.mp hi.sorted).2.1
          exact htk.goesOn hsort (hf q₀ t₀ ⟨⟨rest, hp⟩, hv⟩) hgo
        · rw [Function.update_of_ne h]
          exact hgo
      refine hgo'.congr (hc.expiry q₀) ?_ (Or.inl ?_)
      · intro u _
        rw [hc.relativeTicks]
      · rw [hc.relativeTicks]

/-- The other queues. -/
theorem others (hc : Cancelled s t s') (i : TimersInv s done todo) (hq : q ∈ s.lwtimers)
    (hmem : t ∈ done q ++ todo q) {q' : ℕ} (hq' : q' ∈ s.lwtimers) (hne : q' ≠ q) :
    QueueInv s' q' (done q') (todo q') := by
  have hring := (i.queue q hq).ring
  have ht := List.mem_cons_of_mem q hmem
  have hout : ∀ x ∈ q' :: (done q' ++ todo q'), ∀ y ∈ q :: (done q ++ todo q), x ≠ y := by
    rintro x hx y hy rfl
    exact i.apart hq hq' hne hy hx
  apply (i.queue q' hq').mono
  · intro x hx
    rw [hc.links]
    exact Links.unlink_next_of_ne (hout x hx _ (hring.prev_mem ht))
  · intro x hx
    rw [hc.links]
    exact Links.unlink_prev_of_ne (hout x hx _ (hring.next_mem ht))
  · apply hc.queue_of_ne
    rw [i.owner q hq t hmem]
    exact hne
  · intro x _
    rw [hc.relativeTicks]
  · exact (hc.nextOffset q').ge

theorem timersInv (hc : Cancelled s t s') (i : TimersInv s done todo)
    (hint : s.Interruptible) (hf : s.CancelFits t) :
    ∃ done' todo', TimersInv s' done' todo' ∧ Tracks (.cancel t) done todo done' todo' := by
  obtain ⟨q, hq, hmem⟩ := (i.registered t).mp hc.registered
  have hi := i.queue q hq
  have hown := i.owner q hq t hmem
  obtain ⟨done₁, todo₁, htk⟩ := exists_taken hmem
  have hnot := htk.notMem (List.nodup_cons.mp hi.ring.nodup).2
  have hsub := htk.done_sublist.append htk.todo_sublist
  have hlists : ∀ q' ∈ s.lwtimers, ∀ u,
      u ∈ Function.update done q done₁ q' ++ Function.update todo q todo₁ q' ↔
        u ≠ t ∧ u ∈ done q' ++ todo q' := by
    intro q' hq' u
    by_cases h : q' = q
    · subst h
      rw [Function.update_self, Function.update_self]
      constructor
      · intro hu
        refine ⟨?_, hsub.subset hu⟩
        rintro rfl
        exact hnot hu
      · rintro ⟨hne, hu⟩
        exact htk.mem_lists hu hne
    · rw [Function.update_of_ne h, Function.update_of_ne h]
      refine ⟨fun hu => ⟨?_, hu⟩, fun hu => hu.2⟩
      rintro rfl
      have hown' := i.owner q' hq' u hu
      rw [hown] at hown'
      exact h hown'.symm
  refine ⟨Function.update done q done₁, Function.update todo q todo₁, ?_, ?_⟩
  · constructor
    · intro q' hq'
      rw [hc.lwtimers] at hq'
      by_cases h : q' = q
      · subst h
        rw [Function.update_self, Function.update_self]
        exact hc.queueInv hi hown htk
      · rw [Function.update_of_ne h, Function.update_of_ne h]
        exact hc.others i hq hmem hq' h
    · intro q'
      rw [hc.lwtimers, ← i.valid]
      by_cases h : q' = q
      · rw [h, hc.queue_self hown]
      · rw [hc.queue_of_ne (by rw [hown]; exact h)]
    · intro q' hq' u hu
      rw [hc.lwtimers] at hq' ⊢
      exact i.headers q' hq' u ((hlists q' hq' u).mp hu).2
    · intro q' hq' u hu
      rw [hc.lwtimers] at hq'
      rw [hc.periodPtr]
      exact i.owner q' hq' u ((hlists q' hq' u).mp hu).2
    · intro u
      rw [hc.valid, hc.lwtimers]
      by_cases h : u = t
      · subst h
        rw [Function.update_self]
        refine ⟨fun hf => absurd hf (by decide), ?_⟩
        rintro ⟨q', hq', hu⟩
        exact absurd rfl ((hlists q' hq' u).mp hu).1
      · rw [Function.update_of_ne h, i.registered]
        constructor
        · rintro ⟨q', hq', hu⟩
          exact ⟨q', hq', (hlists q' hq' u).mpr ⟨h, hu⟩⟩
        · rintro ⟨q', hq', hu⟩
          exact ⟨q', hq', ((hlists q' hq' u).mp hu).2⟩
    · unfold PhaseInv
      rw [hc.phase, hc.lwtimers]
      rcases i.running_cases hint with hp | ⟨q₀, t₀, rest, hp, hq₀, hrest, ht₀, hruns, _⟩
      · rw [hp]
        trivial
      · rw [hp]
        exact ⟨hq₀, hrest, ht₀, hc.runsOn i hq hmem hf htk hp hq₀ ht₀ hruns⟩
  · constructor
    · intro q' u hu hne
      have hut : u ≠ t := by
        rintro rfl
        exact hne rfl
      by_cases h : q' = q
      · subst h
        rw [Function.update_self, Function.update_self]
        exact htk.mem_lists hu hut
      · rw [Function.update_of_ne h, Function.update_of_ne h]
        exact hu
    · intro q' u hu hne _
      have hut : u ≠ t := by
        rintro rfl
        exact hne rfl
      by_cases h : q' = q
      · subst h
        rw [Function.update_self]
        constructor
        · exact fun hd => Or.inl (htk.done_sublist.subset hd)
        · intro hd
          rcases hd with hd | hd
          · exact htk.mem_done hd hut
          · cases hd
      · rw [Function.update_of_ne h]
        simp
    · intro q' u he
      cases he
    · intro q' u he
      cases he

end Cancelled

end Mqx.Lw
