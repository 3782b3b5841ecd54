import Mqx.Lw.LwtimerIsr
import Mathlib.Data.List.TakeWhile

/-!
# Adding a timer

The loop of `_lwtimer_add_timer_to_queue` finds the place of the new timer among those
that are passed and those to come. The invariant of the queues is kept wherever in its
walk the interrupt handler is.
-/

namespace Mqx.Lw

open PointerList

variable {s s' : LwtimerData} {q t ticks : ℕ}

/-! ## The place of a new timer -/

/-- The loop finds the end of the timers with smaller offsets. -/
theorem insertPoint_eq {l : List ℕ} (w : s.links.Holds q l) (ticks : ℕ) {a b : List ℕ} {p : ℕ}
    (hs : q :: l = a ++ p :: b) :
    s.insertPoint ticks b.length p =
      (b.takeWhile fun u => s.relativeTicks u < ticks).getLastD p := by
  induction b generalizing a p with
  | nil => rfl
  | cons x b ih =>
    have hnext : s.links.next p = x := w.next_eq hs
    have hprev : s.links.prev x = p := w.prev_eq hs
    rw [List.length_cons, LwtimerData.insertPoint, hnext, hprev]
    by_cases hx : s.relativeTicks x ≥ ticks
    · rw [if_pos hx, List.takeWhile_cons_of_neg (by simpa using hx)]
      rfl
    · have hs' : q :: l = (a ++ [p]) ++ x :: b := by simp [hs]
      rw [if_neg hx, List.takeWhile_cons_of_pos (by simpa using hx), List.getLastD_cons]
      exact ih hs'

theorem insertPoint_of_split {pre suf : List ℕ} (w : s.links.Holds q (pre ++ suf))
    (hpre : ∀ u ∈ pre, s.relativeTicks u < ticks) (hsuf : ∀ u ∈ suf, ticks ≤ s.relativeTicks u) :
    s.insertPoint ticks (pre ++ suf).length q = pre.getLastD q := by
  have hnone : (suf.takeWhile fun u => s.relativeTicks u < ticks) = [] := by
    cases suf with
    | nil => rfl
    | cons u suf =>
      apply List.takeWhile_cons_of_neg
      simpa using hsuf u List.mem_cons_self
  rw [insertPoint_eq w ticks (a := []) rfl, List.takeWhile_append_of_pos, hnone, List.append_nil]
  simpa using hpre

theorem le_of_mem_dropWhile {r : ℕ → ℕ} {l : List ℕ} (hl : l.Pairwise fun a b => r a ≤ r b) :
    ∀ u ∈ l.dropWhile fun v => r v < ticks, ticks ≤ r u := by
  induction l with
  | nil => simp
  | cons v l ih =>
    obtain ⟨hv, hl⟩ := List.pairwise_cons.mp hl
    by_cases h : r v < ticks
    · rw [List.dropWhile_cons_of_pos (by simpa using h)]
      exact ih hl
    · rw [List.dropWhile_cons_of_neg (by simpa using h)]
      intro u hu
      rcases List.mem_cons.mp hu with rfl | hu
      · exact not_lt.mp h
      · exact le_trans (not_lt.mp h) (hv u hu)

/-- The two parts of a queue before and after a timer is put in: either before timers that
are passed already, or among those to come. -/
inductive Placed (s : LwtimerData) (q t ticks : ℕ) (done todo : List ℕ) :
    List ℕ → List ℕ → Prop
  | passed (pre suf : List ℕ) (hsuf : suf ≠ []) (hlate : ticks < s.nextOffset q)
      (hdone : done = pre ++ suf) : Placed s q t ticks done todo (pre ++ t :: suf) todo
  | coming (pre suf : List ℕ) (hcome : s.nextOffset q ≤ ticks) (htodo : todo = pre ++ suf)
      (hsuf : ∀ u ∈ suf, ticks ≤ s.relativeTicks u) :
      Placed s q t ticks done todo done (pre ++ t :: suf)

variable {done todo done₁ todo₁ : List ℕ}

/-- A timer that fits is put in its place. -/
theorem QueueInv.placed (i : QueueInv s q done todo) (t : ℕ)
    (hlate : ticks < s.nextOffset q →
      (s.queue q).timerPtr ≠ q ∧ ticks ≤ s.relativeTicks (s.queue q).timerPtr) :
    ∃ pre suf done₁ todo₁, done ++ todo = pre ++ suf ∧ done₁ ++ todo₁ = pre ++ t :: suf ∧
      (∀ u ∈ pre, s.relativeTicks u < ticks) ∧ (∀ u ∈ suf, ticks ≤ s.relativeTicks u) ∧
      Placed s q t ticks done todo done₁ todo₁ := by
  obtain ⟨hdone, htodo, hcross⟩ := List.pairwise_append.mp i.sorted
  by_cases h : ticks < s.nextOffset q
  · -- the last timer passed stands behind the new one
    obtain ⟨hne, hle⟩ := hlate h
    obtain ⟨z, hz⟩ : ∃ z, done.getLast? = some z := by
      cases hlast : done.getLast? with
      | none =>
        rw [i.ptr, List.getLastD_eq_getLast?, hlast] at hne
        exact absurd rfl hne
      | some z => exact ⟨z, rfl⟩
    have hzr : ticks ≤ s.relativeTicks z := by
      rw [i.ptr, List.getLastD_eq_getLast?, hz] at hle
      exact hle
    have hzmem : z ∈ done := List.mem_of_getLast? hz
    have hsplit := List.takeWhile_append_dropWhile
      (p := fun u => decide (s.relativeTicks u < ticks)) (l := done)
    have hpre : ∀ u ∈ done.takeWhile fun v => s.relativeTicks v < ticks,
        s.relativeTicks u < ticks := by
      intro u hu
      simpa using List.mem_takeWhile_imp hu
    refine ⟨_, (done.dropWhile fun u => s.relativeTicks u < ticks) ++ todo, _, _, ?_, ?_, hpre,
      ?_, .passed _ _ ?_ h hsplit.symm⟩
    · rw [← List.append_assoc, hsplit]
    · simp
    · intro u hu
      rcases List.mem_append.mp hu with hu | hu
      · exact le_of_mem_dropWhile hdone u hu
      · exact le_trans hzr (hcross z hzmem u hu)
    · intro hnil
      rw [hnil, List.append_nil] at hsplit
      rw [← hsplit] at hzmem
      exact absurd (hpre z hzmem) (not_lt.mpr hzr)
  · have hsplit := List.takeWhile_append_dropWhile
      (p := fun u => decide (s.relativeTicks u < ticks)) (l := todo)
    have hsuf : ∀ u ∈ todo.dropWhile fun v => s.relativeTicks v < ticks,
        ticks ≤ s.relativeTicks u := le_of_mem_dropWhile htodo
    refine ⟨done ++ todo.takeWhile fun u => s.relativeTicks u < ticks, _, _, _, ?_, ?_, ?_, hsuf,
      .coming _ _ (not_lt.mp h) hsplit.symm hsuf⟩
    · rw [List.append_assoc, hsplit]
    · simp
    · intro u hu
      rcases List.mem_append.mp hu with hu | hu
      · exact lt_of_lt_of_le (i.done_lt u hu) (not_lt.mp h)
      · simpa using List.mem_takeWhile_imp hu

theorem QueueInv.insertPoint_mem (i : QueueInv s q done todo) (ticks : ℕ) :
    s.insertPoint ticks (s.queue q).size q ∈ q :: (done ++ todo) := by
  rw [i.size, insertPoint_eq i.ring ticks (a := []) rfl]
  have hmem := List.getLastD_mem_cons (a := q)
    (l := (done ++ todo).takeWhile fun u => s.relativeTicks u < ticks)
  rcases List.mem_cons.mp hmem with h | h
  · rw [h]
    exact List.mem_cons_self
  · exact List.mem_cons_of_mem _ ((List.takeWhile_sublist _).subset h)

namespace Placed

variable {u : ℕ} (h : Placed s q t ticks done todo done₁ todo₁)

include h

theorem getLast?_done : done₁.getLast? = done.getLast? := by
  cases h with
  | passed pre suf hsuf _ hdone =>
    obtain ⟨l, z, rfl⟩ := (List.eq_nil_or_concat suf).resolve_left hsuf
    rw [hdone]
    simp [List.getLast?_append, List.getLast?_cons]
  | coming => rfl

theorem of_mem_done (hu : u ∈ done₁) : u = t ∧ ticks < s.nextOffset q ∨ u ∈ done := by
  cases h with
  | passed pre suf _ hlate hdone =>
    rw [hdone]
    simp only [List.mem_append, List.mem_cons] at hu ⊢
    tauto
  | coming => exact Or.inr hu

theorem of_mem_todo (hu : u ∈ todo₁) : u = t ∧ s.nextOffset q ≤ ticks ∨ u ∈ todo := by
  cases h with
  | passed => exact Or.inr hu
  | coming pre suf hcome htodo _ =>
    rw [htodo]
    simp only [List.mem_append, List.mem_cons] at hu ⊢
    tauto

theorem mem_done (hu : u ∈ done) : u ∈ done₁ := by
  cases h with
  | passed pre suf _ _ hdone =>
    rw [hdone] at hu
    simp only [List.mem_append, List.mem_cons] at hu ⊢
    tauto
  | coming => exact hu

theorem mem_todo (hu : u ∈ todo) : u ∈ todo₁ := by
  cases h with
  | passed => exact hu
  | coming pre suf _ htodo _ =>
    rw [htodo] at hu
    simp only [List.mem_append, List.mem_cons] at hu ⊢
    tauto

theorem mem_iff : u ∈ done₁ ++ todo₁ ↔ u = t ∨ u ∈ done ++ todo := by
  cases h with
  | passed pre suf _ _ hdone =>
    rw [hdone]
    simp only [List.mem_append, List.mem_cons]
    tauto
  | coming pre suf _ htodo _ =>
    rw [htodo]
    simp only [List.mem_append, List.mem_cons]
    tauto

end Placed

/-! ## Adding a timer -/

/-- What an accepted call of `_lwtimer_add_timer_to_queue` does. -/
structure Added (s : LwtimerData) (q t ticks : ℕ) (s' : LwtimerData) : Prop where
  queue_valid : (s.queue q).valid = true
  lt_period : ticks < (s.queue q).period
  periodPtr : s'.periodPtr = Function.update s.periodPtr t q
  relativeTicks : s'.relativeTicks = Function.update s.relativeTicks t ticks
  valid : s'.valid = Function.update s.valid t true
  links : s'.links = s.links.link (s.insertPoint ticks (s.queue q).size q) t
  queue : s'.queue =
    Function.update s.queue q { s.queue q with size := ((s.queue q).size + 1) % 2 ^ 16 }
  lwtimers : s'.lwtimers = s.lwtimers
  phase : s'.phase = s.phase

theorem added_or_refused (s : LwtimerData) (q t ticks : ℕ) :
    (s.lwtimerAddTimerToQueue q t ticks).1 = .ok ∧
      Added s q t ticks (s.lwtimerAddTimerToQueue q t ticks).2 ∨
    (s.lwtimerAddTimerToQueue q t ticks).2 = s := by
  unfold LwtimerData.lwtimerAddTimerToQueue
  split
  · exact Or.inr rfl
  · next hv =>
    split
    · exact Or.inr rfl
    · next hlt =>
      refine Or.inl ⟨rfl, ?_⟩
      exact ⟨eq_true_of_ne_false hv, not_le.mp hlt, rfl, rfl, rfl, rfl, rfl, rfl, rfl⟩

theorem nextOffset_congr {q' : ℕ} (hp : s'.phase = s.phase)
    (hq : (s'.queue q').expiry = (s.queue q').expiry) : s'.nextOffset q' = s.nextOffset q' := by
  have hproc : s'.Processing q' ↔ s.Processing q' := by
    unfold LwtimerData.Processing
    rw [hp]
  simp only [LwtimerData.nextOffset, hproc, hq]

/-- What the place of the handler depends on. -/
theorem GoesOn.congr {cur : ℕ} (hgo : GoesOn s q todo cur)
    (hE : (s'.queue q).expiry = (s.queue q).expiry)
    (hr : ∀ u ∈ todo, s'.relativeTicks u = s.relativeTicks u)
    (hcur : s'.relativeTicks cur = s.relativeTicks cur ∨
      (s.queue q).expiry < s'.relativeTicks cur) : GoesOn s' q todo cur := by
  constructor
  · intro u l hl hle
    rw [hE, hr u (by rw [hl]; exact List.mem_cons_self)] at hle
    exact hgo.due u l hl hle
  · intro hnone
    rw [hE] at hnone ⊢
    rcases hcur with hcur | hcur
    · rw [hcur]
      apply hgo.stop
      intro u l hl
      rw [← hr u (by rw [hl]; exact List.mem_cons_self)]
      exact hnone u l hl
    · exact Or.inr hcur

namespace Added

variable {q' u : ℕ} (ha : Added s q t ticks s')

include ha

theorem relativeTicks_self : s'.relativeTicks t = ticks := by
  rw [ha.relativeTicks, Function.update_self]

theorem relativeTicks_of_ne (h : u ≠ t) : s'.relativeTicks u = s.relativeTicks u := by
  rw [ha.relativeTicks, Function.update_of_ne h]

theorem queue_self :
    s'.queue q = { s.queue q with size := ((s.queue q).size + 1) % 2 ^ 16 } := by
  rw [ha.queue, Function.update_self]

theorem queue_of_ne (h : q' ≠ q) : s'.queue q' = s.queue q' := by
  rw [ha.queue, Function.update_of_ne h]

theorem expiry (q' : ℕ) : (s'.queue q').expiry = (s.queue q').expiry := by
  by_cases h : q' = q
  · rw [h, ha.queue_self]
  · rw [ha.queue_of_ne h]

theorem nextOffset (q' : ℕ) : s'.nextOffset q' = s.nextOffset q' :=
  nextOffset_congr ha.phase (ha.expiry q')

/-- The queue that gets the timer. -/
theorem queueInv (i : QueueInv s q done todo) (hroom : (s.queue q).size + 1 < 2 ^ 16)
    (ht : t ∉ q :: (done ++ todo)) {pre suf : List ℕ} (hsplit : done ++ todo = pre ++ suf)
    (hsplit' : done₁ ++ todo₁ = pre ++ t :: suf)
    (hpre : ∀ u ∈ pre, s.relativeTicks u < ticks) (hsuf : ∀ u ∈ suf, ticks ≤ s.relativeTicks u)
    (hpl : Placed s q t ticks done todo done₁ todo₁) : QueueInv s' q done₁ todo₁ := by
  have hlen : (done₁ ++ todo₁).length = (s.queue q).size + 1 := by
    rw [i.size, hsplit, hsplit', List.length_append, List.length_append, List.length_cons]
    omega
  have hne : ∀ u ∈ done ++ todo, u ≠ t := by
    rintro u hu rfl
    exact ht (List.mem_cons_of_mem _ hu)
  have hr : ∀ u ∈ done ++ todo, s'.relativeTicks u = s.relativeTicks u :=
    fun u hu => ha.relativeTicks_of_ne (hne u hu)
  constructor
  · obtain ⟨a, hqa⟩ := cons_eq_concat q pre
    have hpoint : s.insertPoint ticks (s.queue q).size q = pre.getLastD q := by
      have hring := i.ring
      rw [hsplit] at hring
      rw [i.size, hsplit]
      exact insertPoint_of_split hring hpre hsuf
    rw [ha.links, hpoint]
    apply i.ring.link (a := a) (b := suf)
    · rw [hsplit, ← List.cons_append, hqa, List.append_assoc]
      rfl
    · exact ht
    · rw [hsplit', ← List.cons_append, hqa, List.append_assoc]
      rfl
  · rw [ha.queue_self, hlen]
    exact Nat.mod_eq_of_lt hroom
  · rw [hlen]
    exact hroom
  · have hsorted := i.sorted
    rw [hsplit] at hsorted hr
    obtain ⟨h1, h2, h3⟩ := List.pairwise_append.mp hsorted
    rw [hsplit', List.pairwise_append, List.pairwise_cons, ha.relativeTicks_self]
    refine ⟨?_, ⟨?_, ?_⟩, ?_⟩
    · apply List.Pairwise.imp_of_mem _ h1
      intro a b ham hbm hab
      rw [hr a (List.mem_append_left _ ham), hr b (List.mem_append_left _ hbm)]
      exact hab
    · intro b hb
      rw [hr b (List.mem_append_right _ hb)]
      exact hsuf b hb
    · apply List.Pairwise.imp_of_mem _ h2
      intro a b ham hbm hab
      rw [hr a (List.mem_append_right _ ham), hr b (List.mem_append_right _ hbm)]
      exact hab
    · intro a ham b hb
      rw [hr a (List.mem_append_left _ ham)]
      rcases List.mem_cons.mp hb with rfl | hb
      · rw [ha.relativeTicks_self]
        exact (hpre a ham).le
      · rw [hr b (List.mem_append_right _ hb)]
        exact h3 a ham b hb
  · rw [ha.queue_self, List.getLastD_eq_getLast?, hpl.getLast?_done, ← List.getLastD_eq_getLast?]
    exact i.ptr
  · rw [ha.queue_self]
    exact i.expiry
  · intro u hu
    rw [ha.queue_self]
    rcases hpl.mem_iff.mp hu with rfl | hu
    · rw [ha.relativeTicks_self]
      exact ha.lt_period
    · rw [hr u hu]
      exact i.lt_period u hu
  · intro u hu
    rw [ha.expiry]
    rcases hpl.of_mem_todo hu with ⟨rfl, hge⟩ | hu
    · rw [ha.relativeTicks_self]
      exact le_trans (expiry_le_nextOffset s q) hge
    · rw [hr u (List.mem_append_right _ hu)]
      exact i.todo_ge u hu
  · intro u hu
    rw [ha.nextOffset]
    rcases hpl.of_mem_done hu with ⟨rfl, hlt⟩ | hu
    · rw [ha.relativeTicks_self]
      exact hlt
    · rw [hr u (List.mem_append_left _ hu)]
      exact i.done_lt u hu

/-- A queue that the handler works on along an old link. -/
theorem goesOn {cur : ℕ} (hpl : Placed s q t ticks done todo done₁ todo₁)
    (hnext : s.nextOffset q = (s.queue q).expiry + 1) (ht : t ∉ todo)
    (hcur : cur = t → (s.queue q).expiry < ticks) (hgo : GoesOn s q todo cur) :
    GoesOn s' q todo₁ cur := by
  have hr : ∀ u ∈ todo, s'.relativeTicks u = s.relativeTicks u := by
    intro u hu
    apply ha.relativeTicks_of_ne
    rintro rfl
    exact ht hu
  cases hpl with
  | passed =>
    refine hgo.congr (ha.expiry q) hr ?_
    by_cases h : cur = t
    · rw [h, ha.relativeTicks_self]
      exact Or.inr (hcur h)
    · exact Or.inl (ha.relativeTicks_of_ne h)
  | coming pre suf hcome htodo hsuf =>
    rw [hnext] at hcome
    constructor
    · -- a timer that is due stands in front of the new one
      intro u l hl hle
      rw [ha.expiry] at hle
      cases pre with
      | nil =>
        rw [← (List.cons.inj hl).1, ha.relativeTicks_self] at hle
        omega
      | cons v pre =>
        have hv : v = u := (List.cons.inj hl).1
        subst hv
        rw [hr v (by rw [htodo]; exact List.mem_cons_self)] at hle
        exact hgo.due v (pre ++ suf) htodo hle
    · intro hnone
      rw [ha.expiry] at hnone ⊢
      have hstop := hgo.stop ?_
      · by_cases h : cur = t
        · rw [h, ha.relativeTicks_self]
          exact Or.inr hcome
        · rw [ha.relativeTicks_of_ne h]
          exact hstop
      · intro u l hl
        cases pre with
        | nil =>
          have hu := hsuf u (by rw [← List.nil_append suf, ← htodo, hl]; exact List.mem_cons_self)
          omega
        | cons v pre =>
          have hv : v = u := by
            rw [htodo] at hl
            exact (List.cons.inj hl).1
          subst hv
          rw [← hr v (by rw [hl]; exact List.mem_cons_self)]
          exact hnone v _ rfl

end Added

/-! ## Queues side by side -/

namespace TimersInv

variable {done todo : ℕ → List ℕ} (i : TimersInv s done todo)

include i

/-- Two queues have nothing in common. -/
theorem apart {q' x : ℕ} (hq : q ∈ s.lwtimers) (hq' : q' ∈ s.lwtimers) (hne : q' ≠ q)
    (hx : x ∈ q :: (done q ++ todo q)) : x ∉ q' :: (done q' ++ todo q') := by
  intro hx'
  rcases List.mem_cons.mp hx with rfl | hx
  · rcases List.mem_cons.mp hx' with h | hx'
    · exact hne h.symm
    · exact i.headers q' hq' x hx' hq
  · rcases List.mem_cons.mp hx' with rfl | hx'
    · exact i.headers q hq x hx hq'
    · have hown := i.owner q hq x hx
      rw [i.owner q' hq' x hx'] at hown
      exact hne hown

theorem not_registered (hv : s.valid t = false) (hq : q ∈ s.lwtimers) :
    t ∉ done q ++ todo q := by
  intro ht
  have htrue := (i.registered t).mpr ⟨q, hq, ht⟩
  rw [hv] at htrue
  exact absurd htrue (by decide)

/-- Where the handler is when calls are made. -/
theorem running_cases (hint : s.Interruptible) :
    s.phase = .idle ∨ ∃ q t rest, s.phase = .running q t rest ∧ q ∈ s.lwtimers ∧
      rest ⊆ s.lwtimers ∧ t ∉ s.lwtimers ∧ RunsOn s q t (done q) (todo q) ∧
      s.nextOffset q = (s.queue q).expiry + 1 := by
  have hph := i.phase
  unfold PhaseInv at hph
  unfold LwtimerData.Interruptible at hint
  obtain ⟨ph, hp⟩ : ∃ ph, s.phase = ph := ⟨_, rfl⟩
  rw [hp] at hph hint
  cases ph with
  | idle => exact Or.inl hp
  | visit => exact absurd hint not_false
  | scan => exact absurd hint not_false
  | running q t rest =>
    obtain ⟨hq, hrest, ht, hruns⟩ := hph
    refine Or.inr ⟨q, t, rest, hp, hq, hrest, ht, hruns, ?_⟩
    rw [nextOffset_running _ hp, if_pos rfl]

end TimersInv

namespace Added

variable {done todo : ℕ → List ℕ}

/-- A timer function adds a timer. -/
theorem runsOn (ha : Added s q t ticks s') (i : TimersInv s done todo) (hq : q ∈ s.lwtimers)
    (hf : s.AddFits q t ticks) (hpl : Placed s q t ticks (done q) (todo q) done₁ todo₁)
    {q₀ t₀ : ℕ} {rest : List ℕ} (hp : s.phase = .running q₀ t₀ rest) (hq₀ : q₀ ∈ s.lwtimers)
    (ht₀ : t₀ ∉ s.lwtimers) (hruns : RunsOn s q₀ t₀ (done q₀) (todo q₀))
    (hnext : s.nextOffset q₀ = (s.queue q₀).expiry + 1) :
    RunsOn s' q₀ t₀ (Function.update done q done₁ q₀) (Function.update todo q todo₁ q₀) := by
  have hfresh : ∀ q' ∈ s.lwtimers, t ∉ done q' ++ todo q' := fun q' hq' =>
    i.not_registered hf.fresh hq'
  have hticks : ∀ u ∈ todo q₀, s'.relativeTicks u = s.relativeTicks u := by
    intro u hu
    apply ha.relativeTicks_of_ne
    rintro rfl
    exact hfresh q₀ hq₀ (List.mem_append_right _ hu)
  cases hruns with
  | last hlast =>
    apply RunsOn.last
    by_cases h : q₀ = q
    · subst h
      rw [Function.update_self, hpl.getLast?_done]
      exact hlast
    · rw [Function.update_of_ne h]
      exact hlast
  | again hmem hnone =>
    by_cases h : q₀ = q
    · subst h
      rw [Function.update_self, Function.update_self]
      refine RunsOn.again (hpl.mem_todo hmem) ?_
      intro u hu
      rw [ha.expiry]
      rcases hpl.of_mem_todo hu with ⟨rfl, hge⟩ | hu
      · rw [ha.relativeTicks_self]
        omega
      · rw [hticks u hu]
        exact hnone u hu
    · rw [Function.update_of_ne h, Function.update_of_ne h]
      refine RunsOn.again hmem ?_
      intro u hu
      rw [ha.expiry, hticks u hu]
      exact hnone u hu
  | cancelled hv hgo =>
    have hold : s.OnOldLink q₀ t₀ := ⟨⟨rest, hp⟩, hv⟩
    by_cases hself : t = t₀
    · -- the timer of the function itself: it comes again behind all that was due
      obtain ⟨rfl, hlt, hnx⟩ := hf.again q₀ t₀ hold hself
      subst hself
      rw [Function.update_self, Function.update_self]
      have hnone : ∀ u ∈ todo q, (s.queue q).expiry < s.relativeTicks u := by
        apply (i.queue q hq).none_due
        intro u l hl
        by_contra hle
        have hu := hgo.due u l hl (not_lt.mp hle)
        rw [hu] at hnx
        rcases hnx with rfl | hnx
        · have hmem : u ∈ done u ++ todo u := by
            rw [hl]
            exact List.mem_append_right _ List.mem_cons_self
          exact i.headers u hq u hmem hq
        · exact hle hnx
      refine RunsOn.again ?_ ?_
      · have hmem := hpl.mem_iff (u := t).mpr (Or.inl rfl)
        rcases List.mem_append.mp hmem with hmem | hmem
        · rcases hpl.of_mem_done hmem with ⟨_, hlate⟩ | hmem
          · omega
          · exact absurd (List.mem_append_left _ hmem) (hfresh q hq)
        · exact hmem
      · intro u hu
        rw [ha.expiry]
        rcases hpl.of_mem_todo hu with ⟨rfl, _⟩ | hu
        · rw [ha.relativeTicks_self]
          exact hlt
        · rw [hticks u hu]
          exact hnone u hu
    · have hne : t₀ ≠ s.insertPoint ticks (s.queue q).size q := by
        intro heq
        have hmem := (i.queue q hq).insertPoint_mem ticks
        rw [← heq] at hmem
        rcases List.mem_cons.mp hmem with rfl | hmem
        · exact ht₀ hq
        · exact i.not_registered hv hq hmem
      have hlink : s'.links.next t₀ = s.links.next t₀ := by
        rw [ha.links]
        exact Links.link_next_of_ne (Ne.symm hself) hne
      have hcur := hf.oldLink q₀ t₀ hold
      apply RunsOn.cancelled
      · rw [ha.valid, Function.update_of_ne (Ne.symm hself)]
        exact hv
      · rw [hlink]
        by_cases h : q₀ = q
        · subst h
          rw [Function.update_self]
          refine ha.goesOn hpl hnext ?_ ?_ hgo
          · exact fun hm => hfresh q₀ hq (List.mem_append_right _ hm)
          · exact fun h => hcur h.symm
        · rw [Function.update_of_ne h]
          refine hgo.congr (ha.expiry q₀) hticks ?_
          by_cases hc : s.links.next t₀ = t
          · rw [hc, ha.relativeTicks_self]
            exact Or.inr (hcur hc.symm)
          · exact Or.inl (ha.relativeTicks_of_ne hc)

/-- The other queues. -/
theorem others (ha : Added s q t ticks s') (i : TimersInv s done todo) (hq : q ∈ s.lwtimers)
    (hf : s.AddFits q t ticks) {q' : ℕ} (hq' : q' ∈ s.lwtimers) (hne : q' ≠ q) :
    QueueInv s' q' (done q') (todo q') := by
  have hring := (i.queue q hq).ring
  have hpoint := (i.queue q hq).insertPoint_mem ticks
  have ht : t ∉ q' :: (done q' ++ todo q') := by
    intro hmem
    rcases List.mem_cons.mp hmem with rfl | hmem
    · exact hf.timer hq'
    · exact i.not_registered hf.fresh hq' hmem
  have hout : ∀ x ∈ q' :: (done q' ++ todo q'), ∀ y ∈ q :: (done q ++ todo q), x ≠ y := by
    rintro x hx y hy rfl
    exact i.apart hq hq' hne hy hx
  have hxt : ∀ x ∈ q' :: (done q' ++ todo q'), x ≠ t := by
    rintro x hx rfl
    exact ht hx
  apply (i.queue q' hq').mono
  · intro x hx
    rw [ha.links]
    exact Links.link_next_of_ne (hxt x hx) (hout x hx _ hpoint)
  · intro x hx
    rw [ha.links]
    exact Links.link_prev_of_ne (hxt x hx) (hout x hx _ (hring.next_mem hpoint))
  · exact ha.queue_of_ne hne
  · intro x hx
    exact ha.relativeTicks_of_ne (hxt x (List.mem_cons_of_mem _ hx))
  · exact (ha.nextOffset q').ge

theorem timersInv (ha : Added s q t ticks s') (i : TimersInv s done todo)
    (hint : s.Interruptible) (hf : s.AddFits q t ticks) :
    ∃ done' todo', TimersInv s' done' todo' ∧
      Tracks (.add q t ticks) done todo done' todo' := by
  have hq : q ∈ s.lwtimers := (i.valid q).mp ha.queue_valid
  have hi := i.queue q hq
  have hfresh : ∀ q' ∈ s.lwtimers, t ∉ done q' ++ todo q' := fun q' hq' =>
    i.not_registered hf.fresh hq'
  have htq : t ∉ q :: (done q ++ todo q) := by
    intro hmem
    rcases List.mem_cons.mp hmem with rfl | hmem
    · exact hf.timer hq
    · exact hfresh q hq hmem
  obtain ⟨pre, suf, done₁, todo₁, hsplit, hsplit', hpre, hsuf, hpl⟩ := hi.placed t hf.late
  have hlists : ∀ q' u, u ∈ Function.update done q done₁ q' ++ Function.update todo q todo₁ q' ↔
      (u = t ∧ q' = q) ∨ u ∈ done q' ++ todo q' := by
    intro q' u
    by_cases h : q' = q
    · subst h
      rw [Function.update_self, Function.update_self, hpl.mem_iff]
      simp
    · rw [Function.update_of_ne h, Function.update_of_ne h]
      simp [h]
  refine ⟨Function.update done q done₁, Function.update todo q todo₁, ?_, ?_⟩
  · constructor
    · intro q' hq'
      rw [ha.lwtimers] at hq'
      by_cases h : q' = q
      · subst h
        rw [Function.update_self, Function.update_self]
        exact ha.queueInv hi hf.room htq hsplit hsplit' hpre hsuf hpl
      · rw [Function.update_of_ne h, Function.update_of_ne h]
        exact ha.others i hq hf hq' h
    · intro q'
      rw [ha.lwtimers, ← i.valid]
      by_cases h : q' = q
      · rw [h, ha.queue_self]
      · rw [ha.queue_of_ne h]
    · intro q' hq' u hu
      rw [ha.lwtimers] at hq' ⊢
      rcases (hlists q' u).mp hu with ⟨rfl, _⟩ | hu
      · exact hf.timer
      · exact i.headers q' hq' u hu
    · intro q' hq' u hu
      rw [ha.lwtimers] at hq'
      rw [ha.periodPtr]
      rcases (hlists q' u).mp hu with ⟨rfl, rfl⟩ | hu
      · rw [Function.update_self]
      · have hne : u ≠ t := by
          rintro rfl
          exact hfresh q' hq' hu
        rw [Function.update_of_ne hne]
        exact i.owner q' hq' u hu
    · intro u
      rw [ha.valid, ha.lwtimers]
      simp only [hlists]
      by_cases h : u = t
      · subst h
        rw [Function.update_self]
        exact ⟨fun _ => ⟨q, hq, Or.inl ⟨rfl, rfl⟩⟩, fun _ => rfl⟩
      · rw [Function.update_of_ne h, i.registered]
        simp [h]
    · unfold PhaseInv
      rw [ha.phase, ha.lwtimers]
      rcases i.running_cases hint with hp | ⟨q₀, t₀, rest, hp, hq₀, hrest, ht₀, hruns, hnext⟩
      · rw [hp]
        trivial
      · rw [hp]
        exact ⟨hq₀, hrest, ht₀, ha.runsOn i hq hf hpl hp hq₀ ht₀ hruns hnext⟩
  · constructor
    · intro q' u hu _
      exact (hlists q' u).mpr (Or.inr hu)
    · intro q' u hu _ _
      by_cases h : q' = q
      · subst h
        rw [Function.update_self]
        have hne : u ≠ t := by
          rintro rfl
          exact hfresh q' hq hu
        constructor
        · intro hd
          rcases hpl.of_mem_done hd with ⟨rfl, _⟩ | hd
          · exact absurd rfl hne
          · exact Or.inl hd
        · intro hd
          rcases hd with hd | hd
          · exact hpl.mem_done hd
          · cases hd
      · rw [Function.update_of_ne h]
        simp
    · intro q' u he
      cases he
    · intro q' u he
      cases he

end Added

end Mqx.Lw
