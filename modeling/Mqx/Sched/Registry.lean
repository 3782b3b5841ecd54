import Mathlib.Algebra.Order.Ring.Nat
import Mathlib.Data.List.Nodup
import Mathlib.Order.Bounds.Defs
import Mathlib.Tactic.Common

/-!
# The task registry

Model of the list of task descriptors in `task.c`, where tasks get their numbers. The list is
the one behind `TD_LIST`, from its head on; a pointer to its head may be taken for one to a
descriptor, with the fields of the kernel data that happen to stand where those of a descriptor
would.
-/

namespace Mqx.Sched

open Function (update)

/-- A pointer to a task descriptor: `NULL`, a descriptor, or the head of `TD_LIST` in its place. -/
inductive TdPtr where
  | null
  | td (a : ℕ)
  | head
deriving DecidableEq

/-- `TD_LIST` with the task numbers, `TASK_NUMBER` and `INSERT_TD_PTR`. -/
structure Registry where
  tdList : List ℕ
  numberOf : ℕ → ℕ
  taskNumber : ℕ
  insertTdPtr : TdPtr

/-- `INC_TASK_NUMBER`. -/
def incTaskNumber (n : ℕ) : ℕ := if (n + 1) % 2 ^ 16 = 0 then 1 else (n + 1) % 2 ^ 16

/-- The start of a list as its head sees it. -/
def firstTd : List ℕ → TdPtr
  | [] => .head
  | a :: _ => .td a

/-- What follows a descriptor. -/
def nextTd : List ℕ → ℕ → TdPtr
  | [], _ => .head
  | b :: l, a => if b = a then firstTd l else nextTd l a

/-- What stands before a descriptor, after `p`. -/
def prevTd (p : TdPtr) : List ℕ → ℕ → TdPtr
  | [], _ => p
  | b :: l, a => if b = a then p else prevTd (.td b) l a

/-- `_QUEUE_INSERT` behind a descriptor. -/
def insertTd (x : ℕ) : List ℕ → ℕ → List ℕ
  | [], _ => []
  | b :: l, a => if b = a then b :: x :: l else b :: insertTd x l a

namespace Registry

/-- The descriptor after a pointer. -/
def next (r : Registry) : TdPtr → TdPtr
  | .td a => nextTd r.tdList a
  | _ => firstTd r.tdList

/-- The task number that is read through a pointer; `word` is what stands behind the head. -/
def readNumber (r : Registry) (word : ℕ) : TdPtr → ℕ
  | .td a => r.numberOf a
  | _ => word

/-- The loop of `_task_alloc_td_internal`: the new insertion point and number, and whether a
field was read through the head. The comparison with the head never stops it, since the pointer
is that of a descriptor around the head. -/
def scan (r : Registry) (word : ℕ) : ℕ → TdPtr → ℕ → Bool → TdPtr × ℕ × Bool
  | 0, p, num, read => (p, num, read)
  | fuel + 1, p, num, read =>
    let next := r.next p
    let num := incTaskNumber num
    let read := read || decide (next = .head)
    if r.readNumber word next = num then scan r word fuel next num read else (p, num, read)

/-- The list with the new descriptor `x` in it. -/
def insertedList (r : Registry) (x : ℕ) : List ℕ :=
  match r.insertTdPtr with
  | .td a => insertTd x r.tdList a
  | _ => x :: r.tdList

/-- The new descriptor `x` enters the list, and the next number is looked for. -/
def link (r : Registry) (x word : ℕ) : Registry × Bool :=
  let num := r.taskNumber
  let r := { r with tdList := r.insertedList x, numberOf := update r.numberOf x num }
  let (p, num, read) := r.scan word (r.tdList.length + 1) (.td x) num false
  ({ r with insertTdPtr := p, taskNumber := num }, read)

/-- `_task_alloc_td_internal`, where `memory` says whether the descriptor and its stack were
allocated at `x`. -/
def allocTd (r : Registry) (x : ℕ) (memory : Bool) (word : ℕ) : Registry × Bool × Option ℕ :=
  if 2 ^ 16 - 2 ≤ r.tdList.length then (r, false, none)
  else if memory then
    let (r, read) := r.link x word
    (r, read, some x)
  else (r, false, none)

/-- `_task_init_internal`, where `frame` says whether the stack frame could be built: it is what
is allocated last. -/
def init (r : Registry) (x : ℕ) (memory frame : Bool) (word : ℕ) : Registry × Bool × Option ℕ :=
  match r.allocTd x memory word with
  | (r, read, none) => (r, read, none)
  | (r, read, some x) => if frame then (r, read, some x) else (r, read, none)

/-- The registry part of `_task_destroy_internal`. -/
def destroy (r : Registry) (victim : ℕ) : Registry :=
  let num := r.numberOf victim
  let r' :=
    if r.tdList.length = 1 then { r with taskNumber := 1, insertTdPtr := .null }
    else if num < r.taskNumber then
      { r with taskNumber := num, insertTdPtr := prevTd .head r.tdList victim }
    else r
  { r' with tdList := r'.tdList.erase victim }

end Registry

/-- Creations and destructions. -/
inductive TaskOp where
  | create (x : ℕ) (memory frame : Bool) (word : ℕ)
  | destroy (victim : ℕ)

namespace Registry

def apply (r : Registry) : TaskOp → Registry
  | .create x memory frame word => (r.init x memory frame word).1
  | .destroy victim => r.destroy victim

def run (r : Registry) (ops : List TaskOp) : Registry := ops.foldl apply r

/-- A new descriptor is none that is in use, and only tasks are destroyed. -/
def Enabled (r : Registry) : TaskOp → Prop
  | .create x _ _ _ => x ∉ r.tdList
  | .destroy victim => victim ∈ r.tdList

/-- The registry before the first task. -/
def empty (numberOf : ℕ → ℕ) : Registry := ⟨[], numberOf, 1, .null⟩

/-- The last one of a list of descriptors as an insertion point, `NULL` if there is none. -/
def lastTd (l : List ℕ) : TdPtr := (l.getLast?.map TdPtr.td).getD .null

/-- The insertion point is the front of the list: `NULL`, or the head taken for a descriptor. -/
def AtFront (p : TdPtr) : Prop := p = .null ∨ p = .head

/-- The tasks with the numbers below `TASK_NUMBER` stand in front, none of them missing, and the
insertion point is behind them. -/
structure Split (r : Registry) (low high : List ℕ) : Prop where
  tdList : r.tdList = low ++ high
  nodup : r.tdList.Nodup
  lowNumbers : low.map r.numberOf = List.range' 1 low.length
  taskNumber : r.taskNumber = low.length + 1
  highSorted : (high.map r.numberOf).Pairwise (· < ·)
  highAbove : ∀ b ∈ high, r.taskNumber < r.numberOf b
  insertFront : low = [] → AtFront r.insertTdPtr
  insertLast : low ≠ [] → r.insertTdPtr = lastTd low

variable {r : Registry} {low high l post : List ℕ} {a x word : ℕ}

/-! ## The list -/

theorem nextTd_middle (h : (l ++ a :: post).Nodup) : nextTd (l ++ a :: post) a = firstTd post := by
  induction l with
  | nil => simp [nextTd]
  | cons b l ih =>
    rw [List.cons_append, List.nodup_cons] at h
    have hne : b ≠ a := fun hc => h.1 (by simp [hc])
    rw [List.cons_append, nextTd, if_neg hne]
    exact ih h.2

theorem prevTd_middle (h : (l ++ a :: post).Nodup) (p : TdPtr) :
    prevTd p (l ++ a :: post) a = (l.getLast?.map TdPtr.td).getD p := by
  induction l generalizing p with
  | nil => simp [prevTd]
  | cons b l ih =>
    rw [List.cons_append, List.nodup_cons] at h
    have hne : b ≠ a := fun hc => h.1 (by simp [hc])
    rw [List.cons_append, prevTd, if_neg hne, ih h.2]
    cases l with
    | nil => rfl
    | cons c l => simp [List.getLast?_cons]

theorem insertTd_middle (h : (l ++ a :: post).Nodup) :
    insertTd x (l ++ a :: post) a = l ++ a :: x :: post := by
  induction l with
  | nil => simp [insertTd]
  | cons b l ih =>
    rw [List.cons_append, List.nodup_cons] at h
    have hne : b ≠ a := fun hc => h.1 (by simp [hc])
    rw [List.cons_append, insertTd, if_neg hne, ih h.2]
    rfl

theorem incTaskNumber_eq {n : ℕ} (h : n + 1 < 2 ^ 16) : incTaskNumber n = n + 1 := by
  unfold incTaskNumber
  rw [Nat.mod_eq_of_lt h, if_neg (by omega)]

theorem lastTd_append_cons : lastTd (l ++ a :: post) = lastTd (a :: post) := by
  simp [lastTd, List.getLast?_append, List.getLast?_cons]

/-! ## The search for the next number -/

/-- The scan takes the descriptors whose numbers follow on, and reads through the head when these
are the rest of the list. -/
theorem scan_spec {pre : List ℕ} {fuel : ℕ} (num : ℕ) (read : Bool)
    (hlist : r.tdList = pre ++ a :: post) (hnodup : r.tdList.Nodup)
    (hfuel : post.length < fuel) (hnum : num + post.length + 1 < 2 ^ 16)
    (hword : word ≠ num + post.length + 1) (hsorted : (post.map r.numberOf).Pairwise (· < ·))
    (habove : ∀ b ∈ post, num < r.numberOf b) :
    ∃ c rest, post = c ++ rest ∧ c.map r.numberOf = List.range' (num + 1) c.length ∧
      (∀ b ∈ rest, num + c.length + 1 < r.numberOf b) ∧
      r.scan word fuel (.td a) num read =
        (lastTd (a :: c), num + c.length + 1, read || rest.isEmpty) := by
  induction post generalizing pre a fuel num read with
  | nil =>
    obtain ⟨fuel, rfl⟩ : ∃ m, fuel = m + 1 := ⟨fuel - 1, by simp at hfuel; omega⟩
    have hnext : r.next (.td a) = .head := by
      show nextTd r.tdList a = .head
      rw [hlist, nextTd_middle (hlist ▸ hnodup)]
      rfl
    have hinc : incTaskNumber num = num + 1 := incTaskNumber_eq (by simpa using hnum)
    have hne : ¬ word = num + 1 := by simpa using hword
    refine ⟨[], [], rfl, rfl, by simp, ?_⟩
    rw [scan]
    simp only [hnext, hinc, readNumber, if_neg hne]
    simp [lastTd]
  | cons b post ih =>
    obtain ⟨fuel, rfl⟩ : ∃ m, fuel = m + 1 := ⟨fuel - 1, by simp at hfuel; omega⟩
    rw [List.length_cons] at hnum hfuel hword
    rw [List.map_cons, List.pairwise_cons] at hsorted
    have hnext : r.next (.td a) = .td b := by
      show nextTd r.tdList a = .td b
      rw [hlist, nextTd_middle (hlist ▸ hnodup)]
      rfl
    have hinc : incTaskNumber num = num + 1 := incTaskNumber_eq (by omega)
    have hb : num < r.numberOf b := habove b (by simp)
    have hpost : ∀ c ∈ post, r.numberOf b < r.numberOf c :=
      fun c hc => hsorted.1 _ (List.mem_map_of_mem hc)
    rw [scan]
    simp only [hnext, hinc, readNumber]
    by_cases hnumber : r.numberOf b = num + 1
    · -- the next task has the number: the search goes on behind it
      rw [if_pos hnumber]
      obtain ⟨c, rest, hc, hrange, hrest, hscan⟩ := ih (num + 1)
        (read || decide (TdPtr.td b = .head))
        (show r.tdList = (pre ++ [a]) ++ b :: post by rw [hlist]; simp)
        (show post.length < fuel by omega) (by omega) (by omega) hsorted.2
        (fun c hc => hnumber ▸ hpost c hc)
      refine ⟨b :: c, rest, by rw [hc]; rfl, ?_, fun d hd => ?_, ?_⟩
      · rw [List.map_cons, hrange, hnumber, List.length_cons, List.range'_succ]
      · have hd := hrest d hd
        rw [List.length_cons]
        omega
      · rw [hscan, List.length_cons]
        have hlast : lastTd (a :: b :: c) = lastTd (b :: c) := by simp [lastTd]
        rw [hlast, show num + 1 + c.length + 1 = num + (c.length + 1) + 1 by omega]
        simp
    · -- a gap
      rw [if_neg hnumber]
      refine ⟨[], b :: post, rfl, rfl, fun c hc => ?_, ?_⟩
      · rcases List.mem_cons.mp hc with rfl | hc
        · simp only [List.length_nil]
          omega
        · have hlt := hpost c hc
          simp only [List.length_nil]
          omega
      · simp [lastTd]

/-- After a creation the low tasks reach up to the next gap. -/
theorem link_split (h : r.Split low high) (hx : x ∉ r.tdList) (hlen : r.tdList.length < 2 ^ 16 - 2)
    (hword : word ≠ r.tdList.length + 2) :
    ∃ c rest, high = c ++ rest ∧ (r.link x word).1.Split (low ++ x :: c) rest ∧
      (r.link x word).2 = rest.isEmpty := by
  set list := low ++ x :: high with hlistdef
  have hinsert : r.insertedList x = list := by
    unfold insertedList
    rcases List.eq_nil_or_concat low with rfl | ⟨front, a, rfl⟩
    · rcases h.insertFront rfl with hp | hp <;> rw [hp, h.tdList] <;> rfl
    · have hp := h.insertLast (by simp)
      rw [List.concat_eq_append] at hp
      have hnodup := h.nodup
      have htd := h.tdList
      rw [List.concat_eq_append, List.append_assoc] at htd
      rw [lastTd_append_cons] at hp
      rw [hp]
      show insertTd x r.tdList a = _
      rw [htd] at hnodup ⊢
      exact (insertTd_middle hnodup).trans (by simp [hlistdef])
  have hxlow : x ∉ low := fun hc => hx (by rw [h.tdList]; exact List.mem_append_left _ hc)
  have hxhigh : x ∉ high := fun hc => hx (by rw [h.tdList]; exact List.mem_append_right _ hc)
  have hnodup : list.Nodup := by
    have hn := h.nodup
    rw [h.tdList] at hn
    exact (List.perm_middle.nodup_iff).mpr (List.nodup_cons.mpr ⟨by simp [hxlow, hxhigh], hn⟩)
  set number := update r.numberOf x r.taskNumber with hnumber
  have hsame : ∀ l : List ℕ, x ∉ l → l.map number = l.map r.numberOf := by
    intro l hl
    refine List.map_congr_left fun b hb => ?_
    rw [hnumber, Function.update_of_ne]
    rintro rfl
    exact hl hb
  have hnumx : number x = low.length + 1 := by
    rw [hnumber, Function.update_self, h.taskNumber]
  have hlength : r.tdList.length = low.length + high.length := by rw [h.tdList, List.length_append]
  set r₁ : Registry := { r with tdList := list, numberOf := number } with hr₁
  obtain ⟨c, rest, hc, hrange, hrest, hscan⟩ := scan_spec (r := r₁) (low.length + 1) false
    (show r₁.tdList = low ++ x :: high from rfl) hnodup
    (show high.length < list.length + 1 by
      rw [hlistdef, List.length_append, List.length_cons]
      omega)
    (by omega) (show word ≠ low.length + 1 + high.length + 1 by omega)
    (by rw [hr₁]; simpa only [hsame high hxhigh] using h.highSorted) (fun b hb => by
      have hlt := h.highAbove b hb
      have heq : number b = r.numberOf b := by
        rw [hnumber, Function.update_of_ne]
        rintro rfl
        exact hxhigh hb
      rw [h.taskNumber] at hlt
      rw [hr₁]
      simpa only [heq] using hlt)
  have hlink : r.link x word = ({ r₁ with
      insertTdPtr := lastTd (x :: c), taskNumber := low.length + 1 + c.length + 1 },
      rest.isEmpty) := by
    rw [← h.taskNumber, hr₁, hnumber] at hscan
    rw [← h.taskNumber]
    unfold link
    simp only [hinsert, hscan, Bool.false_or]
    rfl
  refine ⟨c, rest, hc, ?_, by rw [hlink]⟩
  rw [hlink]
  have hsub : (c ++ rest).map number = (c ++ rest).map r.numberOf := hsame _ (hc ▸ hxhigh)
  exact {
    tdList := by simp [hr₁, hlistdef, hc]
    nodup := hnodup
    lowNumbers := by
      show (low ++ x :: c).map number = _
      rw [List.map_append, List.map_cons, hsame low hxlow, h.lowNumbers, hnumx]
      have hrange' : c.map number = List.range' (low.length + 1 + 1) c.length := hrange
      rw [hrange', List.length_append, List.length_cons, ← List.range'_append_1,
        List.range'_succ, Nat.add_comm 1]
    taskNumber := by simp; omega
    highSorted := by
      have hs := h.highSorted
      rw [hc, ← hsub, List.map_append] at hs
      exact (List.pairwise_append.mp hs).2.1
    highAbove := hrest
    insertFront := fun hc => by simp at hc
    insertLast := fun _ => lastTd_append_cons.symm }

/-! ## Destructions -/

theorem Split.low_number (h : r.Split low high) (ha : a ∈ low) : r.numberOf a < r.taskNumber := by
  have hmem : r.numberOf a ∈ List.range' 1 low.length :=
    h.lowNumbers ▸ List.mem_map_of_mem ha
  have hlt := (List.mem_range'_1.mp hmem).2
  rw [h.taskNumber]
  omega

/-- The number of a low task is its place in the list. -/
theorem Split.low_place {l₁ l₂ : List ℕ} (h : r.Split low high) (hlow : low = l₁ ++ a :: l₂) :
    l₁.map r.numberOf = List.range' 1 l₁.length ∧ r.numberOf a = l₁.length + 1 ∧
      l₂.map r.numberOf = List.range' (l₁.length + 2) l₂.length := by
  have hnumbers := h.lowNumbers
  rw [hlow, List.map_append, List.length_append, ← List.range'_append_1, List.map_cons,
    List.length_cons, List.range'_succ] at hnumbers
  obtain ⟨h₁, h₂⟩ := List.append_inj hnumbers (by simp)
  obtain ⟨ha, h₂⟩ := List.cons.inj h₂
  exact ⟨h₁, by omega, by rw [h₂, Nat.add_comm 1, Nat.add_assoc]⟩

theorem destroy_split (h : r.Split low high) (ha : a ∈ r.tdList) :
    ∃ low high, (r.destroy a).Split low high := by
  have hnodup := h.nodup
  by_cases hone : r.tdList.length = 1
  · -- the last task
    obtain ⟨b, hb⟩ := List.length_eq_one_iff.mp hone
    obtain rfl : a = b := by simpa [hb] using ha
    refine ⟨[], [], ?_⟩
    simp only [destroy, if_pos hone]
    exact ⟨by simp [hb], by simp [hb], rfl, rfl, by simp, by simp, fun _ => .inl rfl,
      fun hc => absurd rfl hc⟩
  · by_cases hnum : r.numberOf a < r.taskNumber
    · -- a low task: what followed it stands behind the gap
      have hlow : a ∈ low := by
        rw [h.tdList, List.mem_append] at ha
        refine ha.resolve_right fun hc => ?_
        have := h.highAbove a hc
        omega
      obtain ⟨l₁, l₂, hl⟩ := List.append_of_mem hlow
      obtain ⟨h₁, hplace, h₂⟩ := h.low_place hl
      have htd : r.tdList = l₁ ++ a :: (l₂ ++ high) := by rw [h.tdList, hl]; simp
      have hnot : a ∉ l₁ := by
        rw [htd] at hnodup
        exact fun hc => (List.nodup_append.mp hnodup).2.2 a hc a (by simp) rfl
      have hprev : prevTd .head r.tdList a = (l₁.getLast?.map TdPtr.td).getD .head := by
        rw [htd] at hnodup ⊢
        exact prevTd_middle hnodup _
      refine ⟨l₁, l₂ ++ high, ?_⟩
      simp only [destroy, if_neg hone, if_pos hnum]
      exact {
        tdList := by
          show r.tdList.erase a = _
          rw [htd, List.erase_append_right _ hnot, List.erase_cons_head]
        nodup := hnodup.erase a
        lowNumbers := h₁
        taskNumber := hplace
        highSorted := by
          rw [List.map_append, List.pairwise_append]
          refine ⟨?_, h.highSorted, fun b hb c hc => ?_⟩
          · show (l₂.map r.numberOf).Pairwise _
            rw [h₂]
            exact List.pairwise_lt_range'
          · obtain ⟨b, hb', rfl⟩ := List.mem_map.mp hb
            obtain ⟨c, hc', rfl⟩ := List.mem_map.mp hc
            exact Nat.lt_trans (h.low_number (by simp [hl, hb'])) (h.highAbove c hc')
        highAbove := fun b hb => by
          show r.numberOf a < r.numberOf b
          rcases List.mem_append.mp hb with hb | hb
          · have hmem : r.numberOf b ∈ List.range' (l₁.length + 2) l₂.length :=
              h₂ ▸ List.mem_map_of_mem hb
            have hle := (List.mem_range'_1.mp hmem).1
            omega
          · exact Nat.lt_trans hnum (h.highAbove b hb)
        insertFront := fun hc => .inr (by
          show prevTd .head r.tdList a = .head
          rw [hprev, hc]
          rfl)
        insertLast := fun hc => by
          show prevTd .head r.tdList a = lastTd l₁
          rw [hprev, lastTd, List.getLast?_eq_getLast_of_ne_nil hc]
          rfl }
    · -- a high task
      have hlow : a ∉ low := fun hc => hnum (h.low_number hc)
      refine ⟨low, high.erase a, ?_⟩
      simp only [destroy, if_neg hone, if_neg hnum]
      exact {
        tdList := by
          show r.tdList.erase a = _
          rw [h.tdList, List.erase_append_right _ hlow]
        nodup := hnodup.erase a
        lowNumbers := h.lowNumbers
        taskNumber := h.taskNumber
        highSorted := h.highSorted.sublist (List.erase_sublist.map _)
        highAbove := fun b hb => h.highAbove b (List.mem_of_mem_erase hb)
        insertFront := h.insertFront
        insertLast := h.insertLast }

/-! ## What the claim of the registry is -/

/-- The tasks are sorted by number, no two with the same one, and `TASK_NUMBER` is the smallest
number that no task has. -/
structure Numbered (r : Registry) : Prop where
  sorted : (r.tdList.map r.numberOf).Pairwise (· < ·)
  least : IsLeast {n | 0 < n ∧ n ∉ r.tdList.map r.numberOf} r.taskNumber

/-- The task behind which the one with `TASK_NUMBER` belongs, `NULL` for the front. -/
def insertionPoint (r : Registry) : TdPtr :=
  lastTd (r.tdList.filter fun a => r.numberOf a < r.taskNumber)

theorem Split.numbered (h : r.Split low high) : r.Numbered where
  sorted := by
    rw [h.tdList, List.map_append, List.pairwise_append]
    refine ⟨by rw [h.lowNumbers]; exact List.pairwise_lt_range', h.highSorted, fun m hm n hn => ?_⟩
    obtain ⟨b, hb, rfl⟩ := List.mem_map.mp hm
    obtain ⟨c, hc, rfl⟩ := List.mem_map.mp hn
    exact Nat.lt_trans (h.low_number hb) (h.highAbove c hc)
  least := by
    constructor
    · refine ⟨by rw [h.taskNumber]; omega, fun hc => ?_⟩
      obtain ⟨b, hb, hnum⟩ := List.mem_map.mp hc
      rw [h.tdList, List.mem_append] at hb
      rcases hb with hb | hb
      · exact absurd hnum (Nat.ne_of_lt (h.low_number hb))
      · exact absurd hnum (Nat.ne_of_gt (h.highAbove b hb))
    · intro n hn
      by_contra hlt
      rw [h.taskNumber] at hlt
      have hmem : n ∈ low.map r.numberOf := by
        rw [h.lowNumbers, List.mem_range'_1]
        exact ⟨hn.1, by omega⟩
      exact hn.2 (by rw [h.tdList, List.map_append]; exact List.mem_append_left _ hmem)

theorem Split.insertionPoint_eq (h : r.Split low high) : r.insertionPoint = lastTd low := by
  unfold insertionPoint
  rw [h.tdList, List.filter_append]
  have hlow : low.filter (fun a => r.numberOf a < r.taskNumber) = low :=
    List.filter_eq_self.mpr fun b hb => by simpa using h.low_number hb
  have hhigh : high.filter (fun a => r.numberOf a < r.taskNumber) = [] :=
    List.filter_eq_nil_iff.mpr fun b hb => by simpa using Nat.le_of_lt (h.highAbove b hb)
  rw [hlow, hhigh, List.append_nil]

/-! ## Runs -/

/-- What `P` says of a step and the registry before it holds along a run. -/
def Along (P : Registry → TaskOp → Prop) : Registry → List TaskOp → Prop
  | _, [] => True
  | r, op :: ops => P r op ∧ Along P (r.apply op) ops

/-- The step reads a field through the head of the list. -/
def readsHead (r : Registry) : TaskOp → Bool
  | .create x memory frame word => (r.init x memory frame word).2.1
  | .destroy _ => false

/-- The step is a creation that returns `NULL`. -/
def ReturnsNull (r : Registry) : TaskOp → Prop
  | .create x memory frame word => (r.init x memory frame word).2.2 = none
  | .destroy _ => False

/-- The step does all that is said of the registry. -/
structure Correct (r : Registry) (op : TaskOp) : Prop where
  numbered : (r.apply op).Numbered
  insertTdPtr : (r.apply op).insertTdPtr = (r.apply op).insertionPoint
  noHead : r.readsHead op = false
  failed : r.ReturnsNull op → (r.apply op).tdList = r.tdList

/-- The step is a creation that gets a descriptor with a stack. -/
def Links (r : Registry) : TaskOp → Prop
  | .create _ memory _ _ => memory = true ∧ r.tdList.length < 2 ^ 16 - 2
  | .destroy _ => False

/-- What is read at the end of the list is not by chance the number looked for there. -/
def OtherNumber (r : Registry) : TaskOp → Prop
  | .create _ _ _ word => word ≠ r.tdList.length + 2
  | .destroy _ => True

/-- What is true of the registry, the reading apart: the head may stand for `NULL`, and a
creation that returns `NULL` has changed the list when it got its descriptor. -/
structure Kept (r : Registry) (op : TaskOp) : Prop where
  numbered : (r.apply op).Numbered
  insertTdPtr : (r.apply op).insertTdPtr = (r.apply op).insertionPoint ∨
    (r.apply op).insertionPoint = .null ∧ (r.apply op).insertTdPtr = .head
  failed : r.ReturnsNull op → ((r.apply op).tdList = r.tdList ↔ ¬ r.Links op)

variable {ops : List TaskOp} {op : TaskOp} {memory frame : Bool} {P Q : Registry → TaskOp → Prop}

theorem init_of_links (h : r.Links (.create x memory frame word)) :
    r.init x memory frame word =
      ((r.link x word).1, (r.link x word).2, if frame = true then some x else none) := by
  obtain ⟨rfl, hlen⟩ := h
  have hfull : ¬ 2 ^ 16 - 2 ≤ r.tdList.length := by omega
  unfold init allocTd
  rw [if_neg hfull]
  cases frame with
  | false => rfl
  | true => rfl

theorem init_of_not_links (h : ¬ r.Links (.create x memory frame word)) :
    r.init x memory frame word = (r, false, none) := by
  unfold init allocTd
  by_cases hfull : 2 ^ 16 - 2 ≤ r.tdList.length
  · rw [if_pos hfull]
  · have hmemory : ¬ memory = true := fun hc => h ⟨hc, by omega⟩
    rw [if_neg hfull, if_neg hmemory]

theorem Split.insert_eq (h : r.Split low high) : r.insertTdPtr = r.insertionPoint ∨
    r.insertionPoint = .null ∧ r.insertTdPtr = .head := by
  rw [h.insertionPoint_eq]
  by_cases hlow : low = []
  · subst hlow
    exact (h.insertFront rfl).imp id fun hp => ⟨rfl, hp⟩
  · exact .inl (h.insertLast hlow)

/-- One step keeps the split of the list. -/
theorem apply_split (h : r.Split low high) (he : r.Enabled op) (hnum : r.OtherNumber op) :
    ∃ low high, (r.apply op).Split low high := by
  cases op with
  | create x memory frame word =>
    show ∃ low high, (r.init x memory frame word).1.Split low high
    by_cases hlink : r.Links (.create x memory frame word)
    · obtain ⟨c, rest, -, hsplit, -⟩ := link_split h he hlink.2 hnum
      rw [init_of_links hlink]
      exact ⟨_, _, hsplit⟩
    · rw [init_of_not_links hlink]
      exact ⟨low, high, h⟩
  | destroy victim => exact destroy_split h he

/-- A creation that returns `NULL` changes the list just when it got its descriptor. -/
theorem failed_iff (h : r.Split low high) (he : r.Enabled op) (hnum : r.OtherNumber op)
    (hnull : r.ReturnsNull op) : (r.apply op).tdList = r.tdList ↔ ¬ r.Links op := by
  cases op with
  | destroy victim => exact hnull.elim
  | create x memory frame word =>
    show (r.init x memory frame word).1.tdList = _ ↔ _
    by_cases hlink : r.Links (.create x memory frame word)
    · rw [init_of_links hlink]
      obtain ⟨c, rest, hhigh, hsplit, -⟩ := link_split h he hlink.2 hnum
      refine iff_of_false (fun hc => ?_) (not_not_intro hlink)
      have hlen := congrArg List.length hc
      rw [hsplit.tdList, h.tdList, hhigh] at hlen
      simp at hlen
    · rw [init_of_not_links hlink]
      exact iff_of_true rfl hlink

theorem Along.and (h : Along P r ops) (h' : Along Q r ops) :
    Along (fun r op => P r op ∧ Q r op) r ops := by
  induction ops generalizing r with
  | nil => trivial
  | cons op ops ih => exact ⟨⟨h.1, h'.1⟩, ih h.2 h'.2⟩

theorem along_kept (h : ∃ low high, r.Split low high) (he : r.Along Enabled ops)
    (hnum : r.Along OtherNumber ops) : r.Along Kept ops := by
  induction ops generalizing r with
  | nil => trivial
  | cons op ops ih =>
    obtain ⟨low, high, hsplit⟩ := h
    have hstep := apply_split hsplit he.1 hnum.1
    refine ⟨?_, ih hstep he.2 hnum.2⟩
    obtain ⟨low', high', hsplit'⟩ := hstep
    exact ⟨hsplit'.numbered, hsplit'.insert_eq, failed_iff hsplit he.1 hnum.1⟩

theorem empty_split (numberOf : ℕ → ℕ) : (empty numberOf).Split [] [] :=
  ⟨rfl, List.nodup_nil, rfl, rfl, List.Pairwise.nil, by simp, fun _ => .inl rfl,
    fun hc => absurd rfl hc⟩

theorem scan_read {fuel num : ℕ} {p : TdPtr} : (r.scan word fuel p num true).2.2 = true := by
  induction fuel generalizing p num with
  | zero => rfl
  | succ fuel ih =>
    rw [scan]
    simp only [Bool.true_or]
    split
    · exact ih
    · rfl

/-- The creation of the first task reads through the head whatever stands there. -/
theorem readsHead_of_empty {numberOf : ℕ → ℕ} (hlink : (empty numberOf).Links op) :
    (empty numberOf).readsHead op = true := by
  cases op with
  | destroy victim => exact hlink.elim
  | create x memory frame word =>
    have hnext : nextTd [x] x = .head := by simp [nextTd, firstTd]
    show ((empty numberOf).init x memory frame word).2.1 = true
    rw [init_of_links hlink]
    show (scan _ word 2 (.td x) 1 false).2.2 = true
    rw [scan]
    simp only [next, insertedList, empty, hnext, decide_true, Bool.or_true]
    split
    · exact scan_read
    · rfl

/-- In a run all that is said of the registry is right just when no creation gets a descriptor:
the first one that does reads a field through the head. The order of the list, the numbers and
the insertion point are right in every run where what is read there is never by chance the
number that is looked for. -/
theorem task_registry {numberOf : ℕ → ℕ} (he : (empty numberOf).Along Enabled ops) :
    ((empty numberOf).Along Correct ops ↔ (empty numberOf).Along (fun r op => ¬ r.Links op) ops) ∧
      ((empty numberOf).Along OtherNumber ops → (empty numberOf).Along Kept ops) := by
  refine ⟨?_, along_kept ⟨[], [], empty_split numberOf⟩ he⟩
  induction ops with
  | nil => exact Iff.rfl
  | cons op ops ih =>
    have hsame : ¬ (empty numberOf).Links op → (empty numberOf).apply op = empty numberOf := by
      intro hlink
      cases op with
      | destroy victim => exact absurd he.1 (List.not_mem_nil)
      | create x memory frame word =>
        show ((empty numberOf).init x memory frame word).1 = _
        rw [init_of_not_links hlink]
    constructor
    · intro h
      have hlink : ¬ (empty numberOf).Links op := fun hc => by
        have hread := h.1.noHead
        rw [readsHead_of_empty hc] at hread
        exact Bool.noConfusion hread
      have he' := he.2
      have htail := h.2
      rw [hsame hlink] at he' htail
      refine ⟨hlink, ?_⟩
      rw [hsame hlink]
      exact (ih he').mp htail
    · intro h
      have he' := he.2
      have htail := h.2
      rw [hsame h.1] at he' htail
      refine ⟨?_, by rw [hsame h.1]; exact (ih he').mpr htail⟩
      have hsplit := empty_split numberOf
      exact {
        numbered := by rw [hsame h.1]; exact hsplit.numbered
        insertTdPtr := by rw [hsame h.1, hsplit.insertionPoint_eq]; rfl
        noHead := by
          cases op with
          | destroy victim => rfl
          | create x memory frame word =>
            show ((empty numberOf).init x memory frame word).2.1 = false
            rw [init_of_not_links h.1]
        failed := fun _ => by rw [hsame h.1] }

/-- Two tasks are created and the first one destroyed: the next number is 1 again. -/
theorem task_registry_two :
    (empty fun _ => 0).Along Kept
      [.create 10 true true 0, .create 11 true true 0, .destroy 10] := by
  have he : (empty fun _ => 0).Along Enabled
      [.create 10 true true 0, .create 11 true true 0, .destroy 10] :=
    ⟨List.not_mem_nil, fun hc => by simp [apply, init, allocTd, link, insertedList, empty] at hc,
      by show 10 ∈ [10, 11]; decide, trivial⟩
  refine (task_registry he).2 ⟨?_, ?_, trivial, trivial⟩
  · show 0 ≠ 0 + 2
    decide
  · show 0 ≠ 1 + 2
    decide

/-- The first creation reads through the head; one whose stack frame is not built leaves its
descriptor in the list; and after the first of two tasks is destroyed `INSERT_TD_PTR` is the
head. -/
theorem task_registry_fails :
    ¬ (empty fun _ => 0).Along Correct [.create 10 true true 0] ∧
      ¬ (empty fun _ => 0).Along Correct [.create 10 true false 0] ∧
      ((empty fun _ => 0).run [.create 10 true true 0, .create 11 true true 0,
        .destroy 10]).insertTdPtr = .head := by
  refine ⟨fun h => ?_, fun h => ?_, by decide⟩
  · have hread : (empty fun _ => 0).readsHead (.create 10 true true 0) = true := by decide
    exact Bool.noConfusion (hread.symm.trans h.1.noHead)
  · have hlist : [10] = [] := h.1.failed rfl
    exact List.cons_ne_nil _ _ hlist

end Registry

end Mqx.Sched
