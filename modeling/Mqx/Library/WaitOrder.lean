import Mqx.Library.OrderedInsert
import Mathlib.Logic.Function.Basic

/-!
# Queues of waiters ordered by priority

Waiters with a priority each, a smaller number going first, on queues that are served from
the front. A waiter is inserted by its priority of that moment, behind its equals. What
can happen to the queues afterwards is listed by `Effect`; the effects that change a
priority say what they owe to the order.

A history goes along with the waiters: when each of them began to wait, and whether its
priority has changed since.
-/

namespace Mqx.Library

variable {α κ : Type*}

/-- The queues of waiters, and the priority of every one. -/
structure Waiters (α κ : Type*) where
  queue : κ → List α
  prio : α → ℕ

/-- When a waiter began to wait and whether its priority has changed since. -/
structure History (α : Type*) where
  clock : ℕ
  arrival : α → ℕ
  changed : α → Prop

namespace Waiters

def IsWaiting (v : Waiters α κ) (t : α) : Prop := ∃ q, t ∈ v.queue q

/-- No waiter is on two queues, or on one twice. -/
structure Placed (v : Waiters α κ) : Prop where
  nodup : ∀ q, (v.queue q).Nodup
  unique : ∀ {t q q'}, t ∈ v.queue q → t ∈ v.queue q' → q = q'

end Waiters

open Classical in
/-- The history after a step from `v` to `v'`. -/
noncomputable def History.next (h : History α) (v v' : Waiters α κ) : History α where
  clock := h.clock + 1
  arrival t := if v'.IsWaiting t ∧ ¬v.IsWaiting t then h.clock else h.arrival t
  changed t := v.IsWaiting t ∧ (h.changed t ∨ v'.prio t ≠ v.prio t)

/-- `t` goes before `u`: its priority is at least as high, and if the two are equal and
have not changed it has waited longer. -/
def GoesBefore (v : Waiters α κ) (h : History α) (t u : α) : Prop :=
  v.prio t ≤ v.prio u ∧
    (v.prio t = v.prio u → ¬h.changed t → ¬h.changed u → h.arrival t < h.arrival u)

/-- The queues that `byPriority` names are in order. -/
structure InOrder (byPriority : κ → Prop) (v : Waiters α κ) (h : History α) : Prop where
  sorted : ∀ q, byPriority q → (v.queue q).Pairwise (GoesBefore v h)
  arrived : ∀ t, v.IsWaiting t → h.arrival t < h.clock

/-- The new priority of `t` fits its place in the queue. -/
def FitsPlace (v : Waiters α κ) (q : κ) (t : α) (p : ℕ) : Prop :=
  ∀ pre post, v.queue q = pre ++ t :: post →
    (∀ u ∈ pre, v.prio u ≤ p) ∧ ∀ u ∈ post, p ≤ v.prio u

/-- `t` is the last of the waiters of its priority. -/
def LastOfEquals (v : Waiters α κ) (q : κ) (t : α) : Prop :=
  ∀ pre post, v.queue q = pre ++ t :: post → ∀ u ∈ post, v.prio u ≠ v.prio t

section Next

variable {v v' : Waiters α κ} {h : History α} {t u : α}

theorem History.next_arrival_of_waiting (ht : v.IsWaiting t) :
    (h.next v v').arrival t = h.arrival t := by
  simp only [History.next]
  rw [if_neg (fun hn => hn.2 ht)]

theorem History.next_arrival_of_new (ht : v'.IsWaiting t) (hn : ¬v.IsWaiting t) :
    (h.next v v').arrival t = h.clock := by
  simp only [History.next]
  rw [if_pos ⟨ht, hn⟩]

theorem History.not_changed_of_next (ht : v.IsWaiting t) (hc : ¬(h.next v v').changed t) :
    ¬h.changed t ∧ v'.prio t = v.prio t := by
  simp only [History.next, not_and, not_or, not_not] at hc
  exact hc ht

/-- Two waiters whose priorities stay keep their order. -/
theorem GoesBefore.next (hb : GoesBefore v h t u) (ht : v.IsWaiting t) (hu : v.IsWaiting u)
    (hpt : v'.prio t = v.prio t) (hpu : v'.prio u = v.prio u) :
    GoesBefore v' (h.next v v') t u := by
  obtain ⟨hle, htie⟩ := hb
  constructor
  · rw [hpt, hpu]
    exact hle
  · intro heq hct hcu
    rw [History.next_arrival_of_waiting ht, History.next_arrival_of_waiting hu]
    apply htie
    · rw [← hpt, ← hpu]
      exact heq
    · exact (History.not_changed_of_next ht hct).1
    · exact (History.not_changed_of_next hu hcu).1

theorem arrived_next (harr : ∀ t, v.IsWaiting t → h.arrival t < h.clock) (ht : v'.IsWaiting t) :
    (h.next v v').arrival t < (h.next v v').clock := by
  have hclock : (h.next v v').clock = h.clock + 1 := rfl
  rw [hclock]
  by_cases hold : v.IsWaiting t
  · rw [History.next_arrival_of_waiting hold]
    exact Nat.lt_succ_of_lt (harr t hold)
  · rw [History.next_arrival_of_new ht hold]
    exact Nat.lt_succ_self _

variable (v') in
/-- A queue whose waiters keep their priorities stays in order. -/
theorem pairwise_next {q : κ} {l : List α} (hl : l.Sublist (v.queue q))
    (hs : (v.queue q).Pairwise (GoesBefore v h)) (hp : ∀ u ∈ l, v'.prio u = v.prio u) :
    l.Pairwise (GoesBefore v' (h.next v v')) := by
  refine List.Pairwise.imp_of_mem ?_ (hs.sublist hl)
  intro a b ha hb hab
  exact hab.next ⟨q, hl.subset ha⟩ ⟨q, hl.subset hb⟩ (hp a ha) (hp b hb)

end Next

namespace InOrder

variable {byPriority : κ → Prop} {v v' : Waiters α κ} {h : History α}

theorem sleep (o : InOrder byPriority v h) {t : α} {q : κ} (hnew : ¬v.IsWaiting t)
    (hby : byPriority q) (hwait : v'.IsWaiting t) (hprio : v'.prio = v.prio) :
    ((v.queue q).orderedInsert (fun a b => v.prio a < v.prio b) t).Pairwise
      (GoesBefore v' (h.next v v')) := by
  have hold : (v.queue q).Pairwise (GoesBefore v' (h.next v v')) :=
    pairwise_next v' (List.Sublist.refl _) (o.sorted q hby) (fun u _ => congrFun hprio u)
  apply List.pairwise_orderedInsert hold
  · intro b _ c _ htb hbc
    have hle := hbc.1
    rw [hprio] at hle
    refine ⟨?_, ?_⟩
    · rw [hprio]
      exact (le_of_lt htb).trans hle
    · intro heq
      rw [hprio] at heq
      omega
  · intro b _ htb
    refine ⟨?_, ?_⟩
    · rw [hprio]
      exact le_of_lt htb
    · intro heq
      rw [hprio] at heq
      omega
  · -- a waiter of the same priority has been there before
    intro b hb hbt
    have hbw : v.IsWaiting b := ⟨q, hb⟩
    refine ⟨?_, ?_⟩
    · rw [hprio]
      exact not_lt.mp hbt
    · intro _ _ _
      rw [History.next_arrival_of_waiting hbw, History.next_arrival_of_new hwait hnew]
      exact o.arrived b hbw

theorem move (o : InOrder byPriority v h) (w : v.Placed) {t : α} {q : κ} (hby : byPriority q)
    (hprio : ∀ u, u ≠ t → v'.prio u = v.prio u) (hfits : FitsPlace v q t (v'.prio t)) :
    (v.queue q).Pairwise (GoesBefore v' (h.next v v')) := by
  by_cases ht : t ∈ v.queue q
  · obtain ⟨pre, post, hsplit⟩ := List.append_of_mem ht
    obtain ⟨hpre, hpost⟩ := hfits pre post hsplit
    have hnd := w.nodup q
    have hsort := o.sorted q hby
    have hne : ∀ u ∈ pre ++ post, u ≠ t := by
      rintro u hu rfl
      rw [hsplit] at hnd
      have hcons := List.nodup_middle.mp hnd
      exact (List.nodup_cons.mp hcons).1 hu
    have hsub : (pre ++ post).Sublist (v.queue q) := by
      rw [hsplit]
      exact (List.Sublist.refl pre).append (List.sublist_cons_self t post)
    have hrest := pairwise_next v' hsub hsort (fun u hu => hprio u (hne u hu))
    have htw : v.IsWaiting t := ⟨q, ht⟩
    -- a pair with `t` in it: were the priorities equal and unchanged, the old order decides
    have hold : ∀ u ∈ pre, GoesBefore v h u t := by
      rw [hsplit, List.pairwise_append] at hsort
      exact fun u hu => hsort.2.2 u hu t (by simp)
    have hold' : ∀ u ∈ post, GoesBefore v h t u := by
      rw [hsplit, List.pairwise_append] at hsort
      exact fun u hu => (List.pairwise_cons.mp hsort.2.1).1 u hu
    rw [List.pairwise_append] at hrest
    rw [hsplit, List.pairwise_append, List.pairwise_cons]
    refine ⟨hrest.1, ⟨?_, hrest.2.1⟩, ?_⟩
    · intro u hu
      have hup := hprio u (hne u (List.mem_append_right _ hu))
      have huw : v.IsWaiting u := ⟨q, by rw [hsplit]; simp [hu]⟩
      refine ⟨hup ▸ hpost u hu, ?_⟩
      intro heq hct hcu
      have hsame := (History.not_changed_of_next htw hct).2
      exact ((hold' u hu).next htw huw hsame hup).2 heq hct hcu
    · intro u hu x hx
      rcases List.mem_cons.mp hx with rfl | hx
      · have hup := hprio u (hne u (List.mem_append_left _ hu))
        have huw : v.IsWaiting u := ⟨q, by rw [hsplit]; simp [hu]⟩
        refine ⟨hup ▸ hpre u hu, ?_⟩
        intro heq hcu hct
        have hsame := (History.not_changed_of_next htw hct).2
        exact ((hold u hu).next huw htw hup hsame).2 heq hcu hct
      · exact hrest.2.2 u hu x hx
  · exact pairwise_next v' (List.Sublist.refl _) (o.sorted q hby)
      (fun u hu => hprio u (fun hut => ht (hut ▸ hu)))

/-- A waiter that is queued again goes behind its equals; if its priority has not changed
it was behind them before. -/
theorem requeue [DecidableEq α] (o : InOrder byPriority v h) (w : v.Placed) {t : α} {q : κ}
    (hby : byPriority q) (ht : t ∈ v.queue q) (hprio : ∀ u, u ≠ t → v'.prio u = v.prio u)
    (hlast : v'.prio t = v.prio t → LastOfEquals v q t) :
    (((v.queue q).erase t).orderedInsert (fun a b => v'.prio a < v'.prio b) t).Pairwise
      (GoesBefore v' (h.next v v')) := by
  have hnd := w.nodup q
  have hne : ∀ u ∈ (v.queue q).erase t, u ≠ t := fun u hu => (hnd.mem_erase_iff.mp hu).1
  have hrest := pairwise_next v' List.erase_sublist (o.sorted q hby)
    (fun u hu => hprio u (hne u hu))
  have htw : v.IsWaiting t := ⟨q, ht⟩
  apply List.pairwise_orderedInsert hrest
  · intro b _ c _ htb hbc
    have hle := hbc.1
    exact ⟨by omega, fun heq => by omega⟩
  · intro b _ htb
    exact ⟨le_of_lt htb, fun heq => by omega⟩
  · intro b hb hbt
    have hbp := hprio b (hne b hb)
    have hbq : b ∈ v.queue q := List.mem_of_mem_erase hb
    refine ⟨not_lt.mp hbt, ?_⟩
    intro heq hcb hct
    have hsame := (History.not_changed_of_next htw hct).2
    obtain ⟨pre, post, hsplit⟩ := List.append_of_mem ht
    have hbefore : GoesBefore v h b t := by
      have hsort := o.sorted q hby
      rw [hsplit, List.pairwise_append] at hsort
      rw [hsplit] at hbq
      rcases List.mem_append.mp hbq with hpre | hpost
      · exact hsort.2.2 b hpre t (by simp)
      · rcases List.mem_cons.mp hpost with hbt | hpost
        · exact absurd hbt (hne b hb)
        · refine absurd ?_ (hlast hsame pre post hsplit b hpost)
          rw [← hbp, heq, hsame]
    exact (hbefore.next ⟨q, hbq⟩ htw hbp hsame).2 heq hcb hct

end InOrder

/-- What a step may do to the queues and to the priorities of the waiters. -/
inductive Effect [DecidableEq α] [DecidableEq κ] (byPriority : κ → Prop) (v v' : Waiters α κ) : Prop
  /-- Nothing that a waiter could notice. -/
  | quiet (hqueue : v'.queue = v.queue) (hprio : ∀ u, v.IsWaiting u → v'.prio u = v.prio u)
  /-- `t` begins to wait. -/
  | sleep (t : α) (q : κ) (l : List α) (hnew : ¬v.IsWaiting t)
      (hqueue : v'.queue = Function.update v.queue q l)
      (hmem : ∀ u, u ∈ l ↔ u = t ∨ u ∈ v.queue q)
      (hl : byPriority q →
        l = (v.queue q).orderedInsert (fun a b => v.prio a < v.prio b) t)
      (hprio : v'.prio = v.prio)
  /-- The first waiters of a queue are released. -/
  | release (q : κ) (l rest : List α) (hsplit : v.queue q = l ++ rest)
      (hqueue : v'.queue = Function.update v.queue q rest)
      (hprio : ∀ u, v'.IsWaiting u → v'.prio u = v.prio u)
  /-- The priority of `t` changes, and it keeps its place. -/
  | move (t : α) (hqueue : v'.queue = v.queue)
      (hprio : ∀ u, u ≠ t → v'.prio u = v.prio u)
      (hfits : ∀ q, byPriority q → FitsPlace v q t (v'.prio t))
  /-- The priority of `t` changes, and it is queued again. -/
  | requeue (t : α) (q : κ) (hby : byPriority q) (ht : t ∈ v.queue q)
      (hqueue : v'.queue = Function.update v.queue q
        (((v.queue q).erase t).orderedInsert (fun a b => v'.prio a < v'.prio b) t))
      (hprio : ∀ u, u ≠ t → v'.prio u = v.prio u)
      (hlast : v'.prio t = v.prio t → LastOfEquals v q t)

/-- Every effect keeps the queues in order. -/
theorem InOrder.effect [DecidableEq α] [DecidableEq κ] {byPriority : κ → Prop}
    {v v' : Waiters α κ} {h : History α} (o : InOrder byPriority v h) (w : v.Placed)
    (e : Effect byPriority v v') : InOrder byPriority v' (h.next v v') := by
  refine ⟨?_, fun t ht => arrived_next o.arrived ht⟩
  intro q hby
  cases e with
  | quiet hqueue hprio =>
    rw [hqueue]
    exact pairwise_next v' (List.Sublist.refl _) (o.sorted q hby) (fun u hu => hprio u ⟨q, hu⟩)
  | sleep t q' l hnew hqueue hmem hl hprio =>
    rw [hqueue]
    by_cases hq : q = q'
    · subst hq
      have hwait : v'.IsWaiting t := by
        refine ⟨q, ?_⟩
        rw [hqueue, Function.update_self, hmem]
        exact Or.inl rfl
      rw [Function.update_self, hl hby]
      exact o.sleep hnew hby hwait hprio
    · rw [Function.update_of_ne hq]
      exact pairwise_next v' (List.Sublist.refl _) (o.sorted q hby) (fun u _ => congrFun hprio u)
  | release q' l rest hsplit hqueue hprio =>
    have hstay : ∀ u ∈ v'.queue q, v'.prio u = v.prio u := fun u hu => hprio u ⟨q, hu⟩
    rw [hqueue] at hstay ⊢
    by_cases hq : q = q'
    · subst hq
      rw [Function.update_self] at hstay ⊢
      have hsub : rest.Sublist (v.queue q) := by
        rw [hsplit]
        exact List.sublist_append_right l rest
      exact pairwise_next v' hsub (o.sorted q hby) hstay
    · rw [Function.update_of_ne hq] at hstay ⊢
      exact pairwise_next v' (List.Sublist.refl _) (o.sorted q hby) hstay
  | move t hqueue hprio hfits =>
    rw [hqueue]
    exact o.move w hby hprio (hfits q hby)
  | requeue t q' hby' ht hqueue hprio hlast =>
    rw [hqueue]
    by_cases hq : q = q'
    · subst hq
      rw [Function.update_self]
      exact o.requeue w hby ht hprio hlast
    · rw [Function.update_of_ne hq]
      have hne : ∀ u ∈ v.queue q, u ≠ t := by
        rintro u hu rfl
        exact hq (w.unique hu ht)
      exact pairwise_next v' (List.Sublist.refl _) (o.sorted q hby) (fun u hu => hprio u (hne u hu))

end Mqx.Library
