import Mqx.Library.Ring
import Mqx.Sched.Kernel

/-!
# Ready queues as rings

The ready queues as the kernel has them. The headers lie in an array, the one of the lowest
priority first, and a header is an element of the ring of the tasks that are ready at its
priority. The dispatcher looks for a task from `CURRENT_READY_Q` on, which `_TASK_READY` only
raises. In every run it finds the task that has waited longest at the highest priority.
-/

namespace Mqx.Sched

open Function (update)
open PointerList

/-- `sizeof(READY_Q_STRUCT)`. -/
def sizeofReadyQ : ℕ := 16

/-- `HEAD_READY_Q` and `TAIL_READY_Q` of a header lie where a task descriptor has `TD_NEXT` and
`TD_PREV`, so that both are `links`. `MY_QUEUE` of a descriptor is the address of a header. -/
structure ReadyQueues where
  links : Links ℕ
  nextQ : ℕ → ℕ
  td : ℕ → Td
  readyQList : ℕ
  currentReadyQ : ℕ
  activePtr : ℕ

namespace ReadyQueues

variable (s : ReadyQueues) (t : ℕ)

/-- The loop of `_psp_init_readyqs`: `n` headers are left, from `q_ptr` on. -/
def initLoop : ℕ → ℕ → ReadyQueues → ReadyQueues
  | 0, _, s => s
  | n + 1, q_ptr, s => initLoop n (q_ptr + sizeofReadyQ)
      { s with
        links := ⟨update s.links.next q_ptr q_ptr, update s.links.prev q_ptr q_ptr⟩
        nextQ := update s.nextQ q_ptr s.readyQList
        readyQList := q_ptr }

/-- `_psp_init_readyqs`, with the block of the headers at `base`. -/
def initReadyqs (base lowestTaskPriority : ℕ) : ReadyQueues :=
  let s := initLoop (lowestTaskPriority + 3) base { s with readyQList := 0 }
  { s with currentReadyQ := s.readyQList }

/-- `STATE == READY`. -/
def IsReady : Prop := (s.td t).state = .ready ∧ (s.td t).onTimeoutQ = false

instance : Decidable (s.IsReady t) := inferInstanceAs (Decidable (_ ∧ _))

def setTd (d : Td) : ReadyQueues := { s with td := update s.td t d }

/-- `_QUEUE_UNLINK`. -/
def unlink : ReadyQueues := { s with links := s.links.unlink t }

/-- `_TASK_READY`. -/
def taskReady : ReadyQueues :=
  let q := (s.td t).myQueue
  let prev := s.links.prev q
  { s with
    currentReadyQ := if q > s.currentReadyQ then q else s.currentReadyQ
    td := update s.td t
      { s.td t with state := .ready, onTimeoutQ := false, currentTimeSlice := 0 }
    links :=
      { next := update (update s.links.next t (s.links.next prev)) prev t
        prev := update (update s.links.prev t prev) q t } }

/-- The active task leaves its ready queue, as under `SVC_TASK_BLOCK` or on its way to another
queue. -/
def block (state : TaskState) (onTimeoutQ : Bool) (info : ℕ) : ReadyQueues :=
  (s.setTd s.activePtr
    { s.td s.activePtr with state := state, onTimeoutQ := onTimeoutQ, info := info }).unlink
      s.activePtr

/-- `_sched_set_priority_internal`, up to the call of the scheduler. -/
def schedSetPriorityInternal (newPriority : ℕ) : ReadyQueues :=
  let s := s.setTd t { s.td t with myQueue := s.readyQList - newPriority * sizeofReadyQ }
  if s.IsReady t then (s.unlink t).taskReady t else s

/-- `_sched_yield`, up to the call of the scheduler. -/
def schedYield : ReadyQueues := (s.unlink s.activePtr).taskReady s.activePtr

/-- The tick ends the time slice of the active task. -/
def SliceExpires : Prop :=
  let d := s.td s.activePtr
  d.timeSliceTask = true ∧ d.preemptionDisabled = false ∧
    d.timeSlice ≤ (d.currentTimeSlice + 1) % 2 ^ 64

instance : Decidable s.SliceExpires := inferInstanceAs (Decidable (_ ∧ _ ∧ _))

/-- `_time_notify_kernel`: the time slice of the active task. -/
def timeSliceExpire : ReadyQueues :=
  let d := s.td s.activePtr
  if d.timeSliceTask then
    let s' := s.setTd s.activePtr { d with currentTimeSlice := (d.currentTimeSlice + 1) % 2 ^ 64 }
    if s.SliceExpires then (s'.unlink s.activePtr).taskReady s.activePtr else s'
  else s

/-- `find_noempty_que`, of at most so many queues: the first one from `q` on that is not empty,
and its first task. -/
def findNoemptyQue : ℕ → ℕ → Option (ℕ × ℕ)
  | 0, _ => none
  | n + 1, q =>
    if s.links.next q ≠ q then some (q, s.links.next q)
    else if s.nextQ q = 0 then none
    else findNoemptyQue n (s.nextQ q)

/-- `first_run` to `switch_task`. -/
def dispatch (lowestTaskPriority : ℕ) : Option ReadyQueues :=
  (s.findNoemptyQue (lowestTaskPriority + 3) s.currentReadyQ).map fun r =>
    { s with currentReadyQ := r.1, activePtr := r.2 }

/-- The test of `_int_kernel_isr` at the end of the last interrupt, whether to run the
dispatcher. -/
def isrReschedules : Bool :=
  !(s.td s.activePtr).preemptionDisabled && decide (s.links.next s.currentReadyQ ≠ s.activePtr)

end ReadyQueues

/-! ## Headers -/

variable {base lowest p r t c : ℕ}

/-- The header of a priority. -/
def header (base lowest p : ℕ) : ℕ := base + (lowest + 2 - p) * sizeofReadyQ

theorem header_lt (hp : p < r) (hr : r < lowest + 3) : header base lowest r < header base lowest p := by
  unfold header sizeofReadyQ
  omega

theorem header_le (h : p ≤ r) : header base lowest r ≤ header base lowest p := by
  unfold header sizeofReadyQ
  omega

theorem header_inj (hp : p < lowest + 3) (hr : r < lowest + 3)
    (h : header base lowest p = header base lowest r) : p = r := by
  unfold header sizeofReadyQ at h
  omega

theorem readyQList_sub (hp : p < lowest + 3) :
    header base lowest 0 - p * sizeofReadyQ = header base lowest p := by
  unfold header sizeofReadyQ
  omega

namespace ReadyQueues

/-- The rings hold the ready tasks, each the one of the queue that its task names, and nothing is
ready above `CURRENT_READY_Q`. -/
structure Queued (base lowest : ℕ) (tasks : Set ℕ) (readyQ : ℕ → List ℕ) (s : ReadyQueues) :
    Prop where
  list : s.readyQList = header base lowest 0
  nextQ : ∀ p < lowest + 3, s.nextQ (header base lowest p) =
    if p < lowest + 2 then header base lowest (p + 1) else 0
  ring : ∀ p < lowest + 3, s.links.Holds (header base lowest p) (readyQ p)
  mem : ∀ p < lowest + 3, ∀ t, t ∈ readyQ p ↔
    t ∈ tasks ∧ s.IsReady t ∧ (s.td t).myQueue = header base lowest p
  queue : ∀ t ∈ tasks, ∃ p < lowest + 3, (s.td t).myQueue = header base lowest p
  current : ∃ c < lowest + 3, s.currentReadyQ = header base lowest c ∧ ∀ p < c, readyQ p = []

variable {s s' : ReadyQueues} {tasks : Set ℕ} {readyQ : ℕ → List ℕ} {d : Td}

namespace Queued

variable (hfree : ∀ p < lowest + 3, header base lowest p ∉ tasks)

include hfree in
/-- Two rings have no element in common. -/
theorem apart (w : Queued base lowest tasks readyQ s) (hp : p < lowest + 3) (hr : r < lowest + 3)
    (hne : p ≠ r) {x : ℕ} (hx : x ∈ header base lowest p :: readyQ p) :
    x ∉ header base lowest r :: readyQ r := by
  intro hx'
  rcases List.mem_cons.mp hx with rfl | hx
  · rcases List.mem_cons.mp hx' with h | h
    · exact hne (header_inj hp hr h)
    · exact hfree p hp ((w.mem r hr _).mp h).1
  · rcases List.mem_cons.mp hx' with rfl | h
    · exact hfree r hr ((w.mem p hp _).mp hx).1
    · have hq := ((w.mem p hp _).mp hx).2.2
      rw [((w.mem r hr _).mp h).2.2] at hq
      exact hne (header_inj hp hr hq.symm)

/-- Other links do not matter, and tasks that are not ready may be changed. -/
theorem congr (w : Queued base lowest tasks readyQ s) {links : Links ℕ} {td : ℕ → Td}
    (hlinks : ∀ p < lowest + 3, ∀ x ∈ header base lowest p :: readyQ p,
      links.next x = s.links.next x ∧ links.prev x = s.links.prev x)
    (hready : ∀ t ∈ tasks, { s with links := links, td := td }.IsReady t ↔ s.IsReady t)
    (hsame : ∀ t ∈ tasks, s.IsReady t → (td t).myQueue = (s.td t).myQueue)
    (hqueue : ∀ t ∈ tasks, ∃ p < lowest + 3, (td t).myQueue = header base lowest p) :
    Queued base lowest tasks readyQ { s with links := links, td := td } where
  list := w.list
  nextQ := w.nextQ
  ring p hp := (w.ring p hp).congr (fun x hx => (hlinks p hp x hx).1) fun x hx =>
    (hlinks p hp x hx).2
  mem p hp t := by
    rw [w.mem p hp t]
    refine and_congr_right fun ht => ?_
    rw [hready t ht]
    exact and_congr_right fun hr => by rw [hsame t ht hr]
  queue := hqueue
  current := w.current

theorem nodup (w : Queued base lowest tasks readyQ s) (hp : p < lowest + 3) : (readyQ p).Nodup :=
  (List.nodup_cons.mp (w.ring p hp).nodup).2

/-- A change of one ring. -/
theorem setRing (w : Queued base lowest tasks readyQ s) (hp : p < lowest + 3) {l : List ℕ}
    (hlist : s'.readyQList = s.readyQList) (hnext : s'.nextQ = s.nextQ)
    (hring : s'.links.Holds (header base lowest p) l)
    (hother : ∀ r < lowest + 3, r ≠ p → ∀ x ∈ header base lowest r :: readyQ r,
      s'.links.next x = s.links.next x ∧ s'.links.prev x = s.links.prev x)
    (hmem : ∀ u, u ∈ l ↔ u ∈ tasks ∧ s'.IsReady u ∧ (s'.td u).myQueue = header base lowest p)
    (hsame : ∀ u, u ≠ t → s'.td u = s.td u) (htp : t ∈ readyQ p ∨ ¬s.IsReady t)
    (ht : s'.IsReady t → (s'.td t).myQueue = header base lowest p)
    (hqueue : ∃ r < lowest + 3, (s'.td t).myQueue = header base lowest r)
    (hcurrent : ∃ c < lowest + 3, s'.currentReadyQ = header base lowest c ∧
      ∀ r < c, update readyQ p l r = []) :
    Queued base lowest tasks (update readyQ p l) s' where
  list := hlist.trans w.list
  nextQ r hr := by rw [hnext, w.nextQ r hr]
  ring r hr := by
    by_cases hrp : r = p
    · subst hrp
      rwa [Function.update_self]
    · rw [Function.update_of_ne hrp]
      exact (w.ring r hr).congr (fun x hx => (hother r hr hrp x hx).1) fun x hx =>
        (hother r hr hrp x hx).2
  mem r hr u := by
    by_cases hrp : r = p
    · subst hrp
      rw [Function.update_self]
      exact hmem u
    rw [Function.update_of_ne hrp, w.mem r hr u]
    refine and_congr_right fun _ => ?_
    by_cases hut : u = t
    · subst hut
      refine iff_of_false (fun h => ?_) fun h => hrp (header_inj hr hp (h.2.symm.trans (ht h.1)))
      rcases htp with hm | hnot
      · exact hrp (header_inj hr hp (h.2.symm.trans ((w.mem p hp u).mp hm).2.2))
      · exact hnot h.1
    · unfold IsReady
      rw [hsame u hut]
  queue u hu := by
    by_cases hut : u = t
    · rwa [hut]
    · rw [hsame u hut]
      exact w.queue u hu
  current := hcurrent

include hfree in
/-- A task leaves its ring. -/
theorem remove (w : Queued base lowest tasks readyQ s) (hp : p < lowest + 3) (ht : t ∈ readyQ p)
    (hd : ¬(d.state = .ready ∧ d.onTimeoutQ = false))
    (hq : ∃ r < lowest + 3, d.myQueue = header base lowest r) :
    Queued base lowest tasks (update readyQ p ((readyQ p).erase t)) ((s.setTd t d).unlink t) := by
  have hself : ((s.setTd t d).unlink t).td t = d := Function.update_self _ _ _
  have hother : ∀ u, u ≠ t → ((s.setTd t d).unlink t).td u = s.td u := fun u hu =>
    Function.update_of_ne hu _ _
  have hnot : ¬((s.setTd t d).unlink t).IsReady t := by
    unfold IsReady
    rwa [hself]
  -- `t` and its neighbours are on one ring
  have hmem : t ∈ header base lowest p :: readyQ p := List.mem_cons_of_mem _ ht
  have hnext := (w.ring p hp).next_mem hmem
  have hprev := (w.ring p hp).prev_mem hmem
  refine w.setRing hp rfl rfl ?_ (fun r hr hrp x hx => ⟨?_, ?_⟩) (fun u => ?_) hother (Or.inl ht)
    (fun h => absurd h hnot) (by rwa [hself]) ?_
  · obtain ⟨a, b, hab, herase⟩ : ∃ a b, readyQ p = a ++ t :: b ∧ (readyQ p).erase t = a ++ b := by
      obtain ⟨a, b, -, hab, herase⟩ := List.exists_erase_eq ht
      exact ⟨a, b, hab, herase⟩
    rw [herase]
    rcases List.eq_nil_or_concat a with rfl | ⟨a, y, rfl⟩
    · refine (w.ring p hp).unlink (a := []) (p := header base lowest p) (x := t) (b := b) ?_ rfl
      rw [hab]
      rfl
    · refine (w.ring p hp).unlink (a := header base lowest p :: a) (p := y) (x := t) (b := b) ?_ ?_
      · rw [hab]
        simp
      · simp
  · refine Links.unlink_next_of_ne ?_
    rintro rfl
    exact w.apart hfree hr hp hrp hx hprev
  · refine Links.unlink_prev_of_ne ?_
    rintro rfl
    exact w.apart hfree hr hp hrp hx hnext
  · rw [(w.nodup hp).mem_erase_iff, w.mem p hp u]
    by_cases hut : u = t
    · subst hut
      exact iff_of_false (fun h => h.1 rfl) fun h => hnot h.2.1
    · unfold IsReady
      rw [hother u hut]
      simp [hut]
  · obtain ⟨c, hc, hcur, hempty⟩ := w.current
    refine ⟨c, hc, hcur, fun r hr => ?_⟩
    by_cases hrp : r = p
    · subst hrp
      rw [hempty r hr] at ht
      exact absurd ht List.not_mem_nil
    · rw [Function.update_of_ne hrp]
      exact hempty r hr

include hfree in
/-- A task goes to the end of its ring. -/
theorem append (w : Queued base lowest tasks readyQ s) (hp : p < lowest + 3) (ht : t ∈ tasks)
    (hnot : ¬s.IsReady t) (hq : (s.td t).myQueue = header base lowest p) :
    Queued base lowest tasks (update readyQ p (readyQ p ++ [t])) (s.taskReady t) := by
  have hself : (s.taskReady t).td t =
      { s.td t with state := .ready, onTimeoutQ := false, currentTimeSlice := 0 } :=
    Function.update_self _ _ _
  have hother : ∀ u, u ≠ t → (s.taskReady t).td u = s.td u := fun u hu =>
    Function.update_of_ne hu _ _
  have htp : t ∉ header base lowest p :: readyQ p := by
    rw [List.mem_cons, not_or]
    refine ⟨fun h => hfree p hp (h ▸ ht), fun h => hnot ((w.mem p hp t).mp h).2.1⟩
  -- the last element of the ring
  have hlast : s.links.prev (header base lowest p) = (readyQ p).getLastD (header base lowest p) :=
    (w.ring p hp).back.1
  obtain ⟨a, e, hae, he⟩ : ∃ a e, header base lowest p :: readyQ p = a ++ [e] ∧
      s.links.prev (header base lowest p) = e := by
    rcases List.eq_nil_or_concat (readyQ p) with h | ⟨a, e, h⟩
    · exact ⟨[], header base lowest p, by rw [h]; rfl, by rw [hlast, h]; rfl⟩
    · exact ⟨header base lowest p :: a, e, by rw [h]; simp, by rw [hlast, h]; simp⟩
  have hnext : s.links.next e = header base lowest p := (w.ring p hp).next_eq hae
  have hlinks : (s.taskReady t).links = s.links.link e t := by
    unfold taskReady Links.link
    simp only [hq, he, hnext]
  have hmem : e ∈ header base lowest p :: readyQ p := by simp [hae]
  refine w.setRing hp rfl rfl ?_ (fun r hr hrp x hx => ?_) (fun u => ?_) hother (Or.inr hnot)
    (fun _ => by rw [hself]; exact hq) ⟨p, hp, by rw [hself]; exact hq⟩ ?_
  · rw [hlinks]
    refine (w.ring p hp).link (a := a) (p := e) (x := t) (b := []) hae htp ?_
    rw [← List.cons_append, hae]
    simp
  · have hxe : x ≠ e := by
      rintro rfl
      exact w.apart hfree hr hp hrp hx hmem
    have hxp : x ≠ header base lowest p := by
      rintro rfl
      exact w.apart hfree hr hp hrp hx List.mem_cons_self
    have hxt : x ≠ t := by
      rintro rfl
      rcases List.mem_cons.mp hx with h | h
      · exact hfree r hr (h ▸ ht)
      · exact hnot ((w.mem r hr _).mp h).2.1
    rw [hlinks]
    exact ⟨Links.link_next_of_ne hxt hxe, Links.link_prev_of_ne hxt (by rwa [hnext])⟩
  · rw [List.mem_append, List.mem_singleton, w.mem p hp u]
    by_cases hut : u = t
    · subst hut
      refine iff_of_true (Or.inr rfl) ⟨ht, ?_, by rw [hself]; exact hq⟩
      unfold IsReady
      rw [hself]
      exact ⟨rfl, rfl⟩
    · unfold IsReady
      rw [hother u hut]
      simp [hut]
  · obtain ⟨c, hc, hcur, hempty⟩ := w.current
    have hcurrent : (s.taskReady t).currentReadyQ =
        if header base lowest p > header base lowest c then header base lowest p
        else header base lowest c := by
      rw [← hcur, ← hq]
      rfl
    have hupdate : ∀ r, r ≠ p → r < c → update readyQ p (readyQ p ++ [t]) r = [] := fun r hr hrc => by
      rw [Function.update_of_ne hr]
      exact hempty r hrc
    rcases Nat.lt_or_ge p c with hpc | hpc
    · refine ⟨p, hp, by rw [hcurrent, if_pos (header_lt hpc hc)], fun r hr => ?_⟩
      exact hupdate r (by omega) (by omega)
    · refine ⟨c, hc, by rw [hcurrent, if_neg (by simpa using header_le hpc)], fun r hr => ?_⟩
      exact hupdate r (by omega) hr

include hfree in
/-- A ready task goes to the end of the ring of a priority, its own or another one. -/
theorem requeue (w : Queued base lowest tasks readyQ s) (hp : p < lowest + 3) (ht : t ∈ readyQ p)
    (hr : r < lowest + 3) (hd : d.myQueue = header base lowest r) :
    Queued base lowest tasks (update (update readyQ p ((readyQ p).erase t)) r
      (update readyQ p ((readyQ p).erase t) r ++ [t])) (((s.setTd t d).unlink t).taskReady t) := by
  -- `_TASK_READY` sets `STATE`, so the task may as well be blocked before
  have hblocked : ((s.setTd t d).unlink t).taskReady t =
      ((s.setTd t { d with state := .blocked }).unlink t).taskReady t := by
    simp [taskReady, unlink, setTd]
  have hself : ((s.setTd t { d with state := .blocked }).unlink t).td t =
      { d with state := .blocked } := Function.update_self _ _ _
  rw [hblocked]
  refine (w.remove hfree hp ht (d := { d with state := .blocked }) ?_ ⟨r, hr, hd⟩).append hfree hr
    ((w.mem p hp t).mp ht).1 ?_ (by rw [hself]; exact hd)
  · exact fun h => TaskState.noConfusion h.1
  · unfold IsReady
    rw [hself]
    exact fun h => TaskState.noConfusion h.1

/-- The walk of the dispatcher finds the first ring that is not empty. -/
theorem findNoemptyQue_spec (hbase : 0 < base) (w : Queued base lowest tasks readyQ s) :
    ∀ n p, p < lowest + 3 → lowest + 3 ≤ p + n →
      (s.findNoemptyQue n (header base lowest p) = none ∧
        ∀ r < lowest + 3, p ≤ r → readyQ r = []) ∨
      ∃ c t l, c < lowest + 3 ∧ p ≤ c ∧ readyQ c = t :: l ∧ (∀ r, p ≤ r → r < c → readyQ r = []) ∧
        s.findNoemptyQue n (header base lowest p) = some (header base lowest c, t) := by
  intro n
  induction n with
  | zero =>
    intro p hp hn
    omega
  | succ n ih =>
    intro p hp hn
    have hnext := (w.ring p hp).next_eq (a := []) (p := header base lowest p) (b := readyQ p) rfl
    unfold findNoemptyQue
    cases hq : readyQ p with
    | cons t l =>
      rw [hq, List.headD_cons] at hnext
      have hne : s.links.next (header base lowest p) ≠ header base lowest p := by
        rw [hnext]
        rintro rfl
        exact (List.nodup_cons.mp (w.ring p hp).nodup).1 (by rw [hq]; exact List.mem_cons_self)
      refine Or.inr ⟨p, t, l, hp, le_refl p, hq, fun r h h' => absurd h (by omega), ?_⟩
      rw [if_pos hne, hnext]
    | nil =>
      rw [hq, List.headD_nil] at hnext
      rw [if_neg (not_not.mpr hnext), w.nextQ p hp]
      by_cases hlast : p < lowest + 2
      · have hne : header base lowest (p + 1) ≠ 0 := by
          unfold header
          omega
        rw [if_pos hlast, if_neg hne]
        rcases ih (p + 1) (by omega) (by omega) with ⟨hnone, hall⟩ | ⟨c, t, l, hc, hpc, hl, hall, h⟩
        · refine Or.inl ⟨hnone, fun r hr hpr => ?_⟩
          rcases Nat.eq_or_lt_of_le hpr with rfl | hlt
          · exact hq
          · exact hall r hr hlt
        · refine Or.inr ⟨c, t, l, hc, by omega, hl, fun r hpr hrc => ?_, h⟩
          rcases Nat.eq_or_lt_of_le hpr with rfl | hlt
          · exact hq
          · exact hall r hlt hrc
      · rw [if_neg hlast, if_pos rfl]
        refine Or.inl ⟨rfl, fun r hr hpr => ?_⟩
        have hrp : r = p := by omega
        rw [hrp, hq]

theorem dispatch_spec (hbase : 0 < base) (w : Queued base lowest tasks readyQ s) :
    (s.dispatch lowest = none ∧ ∀ r < lowest + 3, readyQ r = []) ∨
      ∃ c t l, c < lowest + 3 ∧ readyQ c = t :: l ∧ (∀ r < c, readyQ r = []) ∧
        s.dispatch lowest =
          some { s with currentReadyQ := header base lowest c, activePtr := t } := by
  obtain ⟨p, hp, hcur, hempty⟩ := w.current
  unfold dispatch
  rw [hcur]
  rcases w.findNoemptyQue_spec hbase (lowest + 3) p hp (by omega) with
    ⟨hnone, hall⟩ | ⟨c, t, l, hc, hpc, hl, hall, h⟩
  · refine Or.inl ⟨by rw [hnone]; rfl, fun r hr => ?_⟩
    rcases Nat.lt_or_ge r p with hrp | hrp
    · exact hempty r hrp
    · exact hall r hr hrp
  · refine Or.inr ⟨c, t, l, hc, hl, fun r hrc => ?_, by rw [h]; rfl⟩
    rcases Nat.lt_or_ge r p with hrp | hrp
    · exact hempty r hrp
    · exact hall r hrp hrc

theorem dispatch (hbase : 0 < base) (w : Queued base lowest tasks readyQ s)
    (h : s.dispatch lowest = some s') : Queued base lowest tasks readyQ s' := by
  rcases w.dispatch_spec hbase with ⟨hnone, -⟩ | ⟨c, t, l, hc, -, hempty, hsome⟩
  · rw [hnone] at h
    cases h
  · rw [hsome] at h
    rw [← Option.some.inj h]
    exact ⟨w.list, w.nextQ, w.ring, w.mem, w.queue, c, hc, rfl, hempty⟩

end Queued
end ReadyQueues
end Mqx.Sched
