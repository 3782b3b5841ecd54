import Mathlib.Data.UInt
import Mqx.Library.Ring

/-!
# Kernel queues

Model of `queue.c` with the macros of `mqx_prv.h`. Elements and headers are given by their
addresses, and a header is an element of its own ring. Interrupts are disabled in every function,
so that a call is a step.
-/

namespace Mqx
namespace Sched

open Function (update)
open PointerList

/-- The links of all elements and headers, and `SIZE` and `MAX` of the headers. -/
structure QueueHeap where
  links : Links ℕ
  size : ℕ → UInt16
  max : ℕ → UInt16

/-- `MQX_CORRUPT_QUEUE` with `*element_in_error_ptr`. -/
abbrev QueueTest := Except ℕ

/-- The loop of `_queue_test`, with the value of `size` after `--size` has passed: the element
behind the last one and that one. -/
def queueTestLoop (r : Links ℕ) (q_ptr : ℕ) : ℕ → ℕ → ℕ → QueueTest (ℕ × ℕ)
  | 0, element_ptr, prev_ptr => .ok (element_ptr, prev_ptr)
  | size + 1, element_ptr, prev_ptr =>
    if element_ptr = q_ptr then .error element_ptr
    else if r.prev element_ptr ≠ prev_ptr then .error element_ptr
    else queueTestLoop r q_ptr size (r.next element_ptr) element_ptr

namespace QueueHeap

/-- `_queue_test`. -/
def queueTest (s : QueueHeap) (q_ptr : ℕ) : QueueTest Unit :=
  match queueTestLoop s.links q_ptr (s.size q_ptr).toNat (s.links.next q_ptr) q_ptr with
  | .error e => .error e
  | .ok (element_ptr, prev_ptr) =>
    if element_ptr ≠ q_ptr then .error element_ptr
    else if s.links.prev q_ptr ≠ prev_ptr then .error element_ptr
    else .ok ()

/-- `_queue_init`. -/
def queueInit (s : QueueHeap) (q_ptr : ℕ) (size : UInt16) : QueueHeap :=
  ⟨⟨update s.links.next q_ptr q_ptr, update s.links.prev q_ptr q_ptr⟩,
    update s.size q_ptr 0, update s.max q_ptr size⟩

/-- `_QUEUE_INSERT`. -/
def insertMacro (s : QueueHeap) (q_ptr queue_member element : ℕ) : QueueHeap :=
  ⟨s.links.link queue_member element, update s.size q_ptr (s.size q_ptr + 1), s.max⟩

/-- `_QUEUE_REMOVE`. -/
def removeMacro (s : QueueHeap) (q_ptr element : ℕ) : QueueHeap :=
  ⟨s.links.unlink element, update s.size q_ptr (s.size q_ptr - 1), s.max⟩

/-- `_queue_enqueue`. -/
def queueEnqueue (s : QueueHeap) (q_ptr e_ptr : ℕ) : Bool × QueueHeap :=
  if s.max q_ptr ≠ 0 ∧ s.max q_ptr ≤ s.size q_ptr then (false, s)
  else (true, s.insertMacro q_ptr (s.links.prev q_ptr) e_ptr)

/-- `_queue_insert`; `qe_ptr` may be null. -/
def queueInsert (s : QueueHeap) (q_ptr : ℕ) (qe_ptr : Option ℕ) (e_ptr : ℕ) : Bool × QueueHeap :=
  let qe_ptr := qe_ptr.getD q_ptr
  if s.max q_ptr ≠ 0 ∧ s.max q_ptr ≤ s.size q_ptr then (false, s)
  else (true, s.insertMacro q_ptr qe_ptr e_ptr)

/-- `_queue_dequeue`. -/
def queueDequeue (s : QueueHeap) (q_ptr : ℕ) : Option ℕ × QueueHeap :=
  if s.size q_ptr = 0 then (none, s)
  else
    let e_ptr := s.links.next q_ptr
    (some e_ptr, s.removeMacro q_ptr e_ptr)

/-- `_queue_unlink`. -/
def queueUnlink (s : QueueHeap) (q_ptr e_ptr : ℕ) : QueueHeap :=
  s.removeMacro q_ptr e_ptr

end QueueHeap

inductive QueueCall
  | init (q_ptr : ℕ) (size : UInt16)
  | enqueue (q_ptr e_ptr : ℕ)
  | insert (q_ptr : ℕ) (qe_ptr : Option ℕ) (e_ptr : ℕ)
  | dequeue (q_ptr : ℕ)
  | unlink (q_ptr e_ptr : ℕ)

/-- What a call returns. -/
inductive QueueResult
  | done
  | inserted (success : Bool)
  | removed (e_ptr : Option ℕ)

def QueueHeap.call (s : QueueHeap) : QueueCall → QueueResult × QueueHeap
  | .init q size => (.done, s.queueInit q size)
  | .enqueue q e => (.inserted (s.queueEnqueue q e).1, (s.queueEnqueue q e).2)
  | .insert q qe e => (.inserted (s.queueInsert q qe e).1, (s.queueInsert q qe e).2)
  | .dequeue q => (.removed (s.queueDequeue q).1, (s.queueDequeue q).2)
  | .unlink q e => (.done, s.queueUnlink q e)

/-! ## Queues as sequences -/

/-- A queue as the sequence of its elements, with the most it takes unless that is 0. -/
structure AbstractQueue where
  elements : List ℕ
  max : UInt16

/-- The queues by their headers. -/
abbrev QueueTable := ℕ → Option AbstractQueue

/-- A sequence with `e` behind `x`. -/
def insertAfter (x e : ℕ) : List ℕ → List ℕ
  | [] => []
  | y :: l => if y = x then y :: e :: l else y :: insertAfter x e l

def AbstractQueue.Full (a : AbstractQueue) : Prop :=
  a.max ≠ 0 ∧ a.max.toNat ≤ a.elements.length

instance (a : AbstractQueue) : Decidable a.Full :=
  inferInstanceAs (Decidable (a.max ≠ 0 ∧ a.max.toNat ≤ a.elements.length))

/-- What a call does to a queue, and what it returns. -/
def AbstractQueue.call (a : AbstractQueue) : QueueCall → QueueResult × AbstractQueue
  | .init _ size => (.done, ⟨[], size⟩)
  | .enqueue _ e =>
    if a.Full then (.inserted false, a) else (.inserted true, ⟨a.elements ++ [e], a.max⟩)
  | .insert _ qe e =>
    if a.Full then (.inserted false, a)
    else (.inserted true,
      ⟨qe.elim (e :: a.elements) fun x => insertAfter x e a.elements, a.max⟩)
  | .dequeue _ => (.removed a.elements.head?, ⟨a.elements.tail, a.max⟩)
  | .unlink _ e => (.done, ⟨a.elements.erase e, a.max⟩)

def QueueCall.queue : QueueCall → ℕ
  | .init q _ => q
  | .enqueue q _ => q
  | .insert q _ _ => q
  | .dequeue q => q
  | .unlink q _ => q

namespace QueueTable

/-- A call, which makes a queue of an element that is none. -/
def call (t : QueueTable) (c : QueueCall) : QueueResult × QueueTable :=
  let r := ((t c.queue).getD ⟨[], 0⟩).call c
  (r.1, update t c.queue (some r.2))

/-- The element is on no queue, and no queue itself. -/
def Free (t : QueueTable) (e : ℕ) : Prop :=
  ∀ q a, t q = some a → e ∉ q :: a.elements

/-- What the callers see to: a header is on no queue, an element that is inserted is on none, a
queue gets no more than 65535 elements, and what is inserted behind or unlinked is a member. -/
def Admissible (t : QueueTable) : QueueCall → Prop
  | .init q _ => ∀ q' a, t q' = some a → q ∉ a.elements
  | .enqueue q e => ∃ a, t q = some a ∧ a.elements.length < 65535 ∧ t.Free e
  | .insert q qe e =>
    ∃ a, t q = some a ∧ a.elements.length < 65535 ∧ t.Free e ∧ ∀ x ∈ qe, x ∈ a.elements
  | .dequeue q => ∃ a, t q = some a
  | .unlink q e => ∃ a, t q = some a ∧ e ∈ a.elements

/-- Each call of a run is admissible where it is made. -/
def AdmissibleRun : QueueTable → List QueueCall → Prop
  | _, [] => True
  | t, c :: calls => t.Admissible c ∧ AdmissibleRun (t.call c).2 calls

def run (t : QueueTable) : List QueueCall → List QueueResult × QueueTable
  | [] => ([], t)
  | c :: calls => ((t.call c).1 :: ((t.call c).2.run calls).1, ((t.call c).2.run calls).2)

end QueueTable

def QueueHeap.run (s : QueueHeap) : List QueueCall → List QueueResult × QueueHeap
  | [] => ([], s)
  | c :: calls => ((s.call c).1 :: ((s.call c).2.run calls).1, ((s.call c).2.run calls).2)

/-! ## The heap holds the queues -/

/-- The elements behind a header form a ring in which `NEXT` and `PREV` are inverse. -/
structure Circular (r : Links ℕ) (q : ℕ) (l : List ℕ) : Prop where
  holds : r.Holds q l
  prev_next : ∀ x ∈ q :: l, r.prev (r.next x) = x
  next_prev : ∀ x ∈ q :: l, r.next (r.prev x) = x

/-- One queue in the heap. -/
structure QueueIn (s : QueueHeap) (q : ℕ) (a : AbstractQueue) : Prop where
  ring : s.links.Holds q a.elements
  size : (s.size q).toNat = a.elements.length
  max : s.max q = a.max
  bound : a.max ≠ 0 → a.elements.length ≤ a.max.toNat

structure Represents (s : QueueHeap) (t : QueueTable) : Prop where
  queue : ∀ q a, t q = some a → QueueIn s q a
  apart : ∀ q a q' a', t q = some a → t q' = some a' → q ≠ q' →
    (q :: a.elements).Disjoint (q' :: a'.elements)

variable {s : QueueHeap} {t : QueueTable} {r : Links ℕ} {q e x : ℕ} {l : List ℕ}
  {a a' : AbstractQueue}

/-! ## The test -/

/-- The loop passes just a list of its length behind the header, without the header. -/
theorem queueTestLoop_ok {n b p b' p' : ℕ} :
    queueTestLoop r q n b p = .ok (b', p') ↔
      ∃ l, l.length = n ∧ Linked r.next b l b' ∧ BackLinked r.prev p l ∧ q ∉ l ∧
        p' = l.getLastD p := by
  induction n generalizing b p with
  | zero =>
    rw [queueTestLoop, Except.ok.injEq, Prod.mk.injEq]
    constructor
    · rintro ⟨rfl, rfl⟩
      exact ⟨[], rfl, rfl, trivial, List.not_mem_nil, rfl⟩
    · rintro ⟨l, hlen, hlink, -, -, hlast⟩
      obtain rfl := List.eq_nil_of_length_eq_zero hlen
      exact ⟨hlink, hlast.symm⟩
  | succ n ih =>
    rw [queueTestLoop]
    constructor
    · intro h
      split_ifs at h with hq hp
      obtain ⟨l, hlen, hlink, hback, hmem, hlast⟩ := ih.1 h
      refine ⟨b :: l, by rw [List.length_cons, hlen], ⟨rfl, hlink⟩, ⟨not_not.1 hp, hback⟩, ?_, ?_⟩
      · rw [List.mem_cons, not_or]
        exact ⟨fun heq => hq heq.symm, hmem⟩
      · rw [hlast, List.getLastD_cons]
    · rintro ⟨l, hlen, hlink, hback, hmem, hlast⟩
      obtain _ | ⟨y, l⟩ := l
      · cases hlen
      · obtain ⟨rfl, hlink⟩ := hlink
        obtain ⟨hprev, hback⟩ := hback
        rw [List.mem_cons, not_or] at hmem
        rw [if_neg (Ne.symm hmem.1), if_neg (not_not.2 hprev)]
        refine ih.2 ⟨l, Nat.succ.inj hlen, hlink, hback, hmem.2, ?_⟩
        rw [hlast, List.getLastD_cons]

/-- A walk that comes back to the header for the first time passes no element twice. -/
theorem holds_iff : r.Holds q l ↔
    Linked r.next (r.next q) l q ∧ BackLinked r.prev q l ∧ q ∉ l ∧ r.prev q = l.getLastD q := by
  constructor
  · intro h
    exact ⟨h.linked.2, h.back.2, (List.nodup_cons.1 h.nodup).1, h.back.1⟩
  · rintro ⟨hlink, hback, hmem, hlast⟩
    exact ⟨⟨rfl, hlink⟩, ⟨hlast, hback⟩, List.nodup_cons.2 ⟨hmem, hlink.nodup hmem⟩⟩

theorem queueTest_ok :
    s.queueTest q = .ok () ↔ ∃ l, l.length = (s.size q).toNat ∧ s.links.Holds q l := by
  rw [QueueHeap.queueTest]
  simp only [holds_iff]
  constructor
  · intro h
    cases hloop : queueTestLoop s.links q (s.size q).toNat (s.links.next q) q with
    | error e =>
      rw [hloop] at h
      cases h
    | ok r =>
      obtain ⟨b, p⟩ := r
      rw [hloop] at h
      dsimp only at h
      split_ifs at h with hb hp
      obtain ⟨l, hlen, hlink, hback, hmem, hlast⟩ := queueTestLoop_ok.1 hloop
      rw [not_not.1 hb] at hlink
      exact ⟨l, hlen, hlink, hback, hmem, (not_not.1 hp).trans hlast⟩
  · rintro ⟨l, hlen, hlink, hback, hmem, hlast⟩
    have hloop := queueTestLoop_ok.2 ⟨l, hlen, hlink, hback, hmem, rfl⟩
    rw [hloop]
    dsimp only
    rw [if_neg (not_not.2 rfl), if_neg (not_not.2 hlast)]

theorem Circular.of_holds (h : r.Holds q l) : Circular r q l := by
  refine ⟨h, fun x hx => ?_, fun x hx => ?_⟩
  · obtain ⟨b, c, hsplit⟩ := List.append_of_mem hx
    cases c with
    | nil =>
      have hlast := Links.getLastD_tail hsplit
      rw [h.next_eq hsplit, List.headD_nil, h.back.1, hlast, List.getLastD_nil]
    | cons y c => rw [h.next_eq hsplit, List.headD_cons, h.prev_eq hsplit]
  · obtain ⟨b, c, hsplit⟩ := List.append_of_mem hx
    rcases List.eq_nil_or_concat b with rfl | ⟨b, p, rfl⟩
    · obtain ⟨rfl, rfl⟩ := List.cons.inj hsplit
      rcases List.eq_nil_or_concat l with rfl | ⟨l, p, rfl⟩
      · rw [h.back.1, List.getLastD_nil]
        exact h.linked.2
      · have hp : q :: l.concat p = (q :: l) ++ p :: [] := by simp
        have hlast : (l.concat p).getLastD q = p := by simp
        rw [h.back.1, hlast, h.next_eq hp, List.headD_nil]
    · have hp : q :: l = b ++ p :: x :: c := by rw [hsplit]; simp
      rw [h.prev_eq hp, h.next_eq hp, List.headD_cons]

/-! ## The operations -/

theorem QueueIn.frame {s' : QueueHeap} (h : QueueIn s q a)
    (hnext : ∀ x ∈ q :: a.elements, s'.links.next x = s.links.next x)
    (hprev : ∀ x ∈ q :: a.elements, s'.links.prev x = s.links.prev x)
    (hsize : s'.size q = s.size q) (hmax : s'.max q = s.max q) : QueueIn s' q a :=
  ⟨h.ring.congr hnext hprev, by rw [hsize, h.size], by rw [hmax, h.max], h.bound⟩

/-- A queue is changed, and the others are as before. -/
theorem Represents.update {s' : QueueHeap} (h : Represents s t) (hq : QueueIn s' q a')
    (hframe : ∀ q' b, t q' = some b → q' ≠ q → QueueIn s' q' b)
    (hnew : ∀ q' b, t q' = some b → q' ≠ q → (q :: a'.elements).Disjoint (q' :: b.elements)) :
    Represents s' (Function.update t q (some a')) := by
  have hcases : ∀ q' b, Function.update t q (some a') q' = some b →
      q' = q ∧ b = a' ∨ q' ≠ q ∧ t q' = some b := by
    intro q' b hb
    by_cases hqq : q' = q
    · rw [hqq, Function.update_self, Option.some.injEq] at hb
      exact .inl ⟨hqq, hb.symm⟩
    · rw [Function.update_of_ne hqq] at hb
      exact .inr ⟨hqq, hb⟩
  constructor
  · intro q' b hb
    obtain ⟨rfl, rfl⟩ | ⟨hne, hb⟩ := hcases q' b hb
    · exact hq
    · exact hframe q' b hb hne
  · intro q₁ b₁ q₂ b₂ hb₁ hb₂ hne
    obtain ⟨rfl, rfl⟩ | ⟨hne₁, hold₁⟩ := hcases q₁ b₁ hb₁
    · obtain ⟨rfl, rfl⟩ | ⟨hne₂, hold₂⟩ := hcases q₂ b₂ hb₂
      · exact absurd rfl hne
      · exact hnew q₂ b₂ hold₂ hne₂
    · obtain ⟨rfl, rfl⟩ | ⟨hne₂, hold₂⟩ := hcases q₂ b₂ hb₂
      · exact (hnew q₁ b₁ hold₁ hne₁).symm
      · exact h.apart q₁ b₁ q₂ b₂ hold₁ hold₂ hne

/-- An element is put behind a member or the header. -/
theorem Represents.insert (h : Represents s t) (hq : t q = some a) {b c : List ℕ} {p : ℕ}
    (hsplit : q :: a.elements = b ++ p :: c) (hfree : t.Free e) (hlen : a.elements.length < 65535)
    (hfull : ¬a.Full) (hsplit' : q :: l = b ++ p :: e :: c) :
    Represents (s.insertMacro q p e) (Function.update t q (some ⟨l, a.max⟩)) := by
  have hin := h.queue q a hq
  have hp : p ∈ q :: a.elements := by rw [hsplit]; simp
  have hlength : l.length = a.elements.length + 1 := by
    have hold := congrArg List.length hsplit
    have hnew := congrArg List.length hsplit'
    simp only [List.length_cons, List.length_append] at hold hnew
    omega
  have hmem : ∀ x ∈ q :: l, x = e ∨ x ∈ q :: a.elements := by
    intro x hx
    rw [hsplit'] at hx
    rw [hsplit]
    simp only [List.mem_append, List.mem_cons] at hx ⊢
    tauto
  refine h.update ⟨?_, ?_, hin.max, ?_⟩ ?_ ?_
  · exact hin.ring.link hsplit (hfree q a hq) hsplit'
  · have hsize := hin.size
    have hone : (s.size q + 1).toNat = (s.size q).toNat + 1 := by
      rw [UInt16.toNat_add]
      exact Nat.mod_eq_of_lt (by rw [hsize]; exact Nat.succ_lt_succ hlen)
    change (Function.update s.size q (s.size q + 1) q).toNat = l.length
    rw [Function.update_self, hone, hsize, hlength]
  · intro hmax
    change l.length ≤ a.max.toNat
    rw [hlength]
    exact Nat.lt_of_not_le fun hle => hfull ⟨hmax, hle⟩
  · intro q' b' hb hne
    have hapart := h.apart q a q' b' hq hb (Ne.symm hne)
    have hother : ∀ x ∈ q' :: b'.elements, x ≠ e ∧ x ∉ q :: a.elements := fun x hx =>
      ⟨fun heq => hfree q' b' hb (heq ▸ hx), fun hx' => hapart hx' hx⟩
    refine (h.queue q' b' hb).frame (fun x hx => ?_) (fun x hx => ?_)
      (Function.update_of_ne hne _ _) rfl
    · exact Links.link_next_of_ne (hother x hx).1 fun heq => (hother x hx).2 (heq ▸ hp)
    · exact Links.link_prev_of_ne (hother x hx).1
        fun heq => (hother x hx).2 (heq ▸ hin.ring.next_mem hp)
  · intro q' b' hb hne x hx hx'
    obtain rfl | hx := hmem x hx
    · exact hfree q' b' hb hx'
    · exact h.apart q a q' b' hq hb (Ne.symm hne) hx hx'

/-- A member is taken out. -/
theorem Represents.remove (h : Represents s t) (hq : t q = some a) {b c : List ℕ} {p : ℕ}
    (hsplit : q :: a.elements = b ++ p :: e :: c) (hsplit' : q :: l = b ++ p :: c) :
    Represents (s.removeMacro q e) (Function.update t q (some ⟨l, a.max⟩)) := by
  have hin := h.queue q a hq
  have he : e ∈ q :: a.elements := by rw [hsplit]; simp
  have hlength : a.elements.length = l.length + 1 := by
    have hold := congrArg List.length hsplit
    have hnew := congrArg List.length hsplit'
    simp only [List.length_cons, List.length_append] at hold hnew
    omega
  have hmem : ∀ x ∈ q :: l, x ∈ q :: a.elements := by
    intro x hx
    rw [hsplit'] at hx
    rw [hsplit]
    simp only [List.mem_append, List.mem_cons] at hx ⊢
    tauto
  refine h.update ⟨?_, ?_, hin.max, ?_⟩ ?_ ?_
  · exact hin.ring.unlink hsplit hsplit'
  · have hsize := hin.size
    have hone : (s.size q - 1).toNat = (s.size q).toNat - 1 :=
      UInt16.toNat_sub_of_le _ _ (UInt16.le_iff_toNat_le.2 (by
        rw [hsize, hlength]
        exact Nat.le_add_left 1 _))
    change (Function.update s.size q (s.size q - 1) q).toNat = l.length
    rw [Function.update_self, hone, hsize, hlength, Nat.add_sub_cancel]
  · intro hmax
    have hbound := hin.bound hmax
    change l.length ≤ a.max.toNat
    omega
  · intro q' b' hb hne
    have hapart := h.apart q a q' b' hq hb (Ne.symm hne)
    have hother : ∀ x ∈ q' :: b'.elements, x ∉ q :: a.elements :=
      fun x hx hx' => hapart hx' hx
    refine (h.queue q' b' hb).frame (fun x hx => ?_) (fun x hx => ?_)
      (Function.update_of_ne hne _ _) rfl
    · exact Links.unlink_next_of_ne fun heq => hother x hx (heq ▸ hin.ring.prev_mem he)
    · exact Links.unlink_prev_of_ne fun heq => hother x hx (heq ▸ hin.ring.next_mem he)
  · intro q' b' hb hne x hx hx'
    exact h.apart q a q' b' hq hb (Ne.symm hne) (hmem x hx) hx'

theorem Represents.init (h : Represents s t) (hq : ∀ q' b, t q' = some b → q ∉ b.elements)
    (size : UInt16) :
    Represents (s.queueInit q size) (Function.update t q (some ⟨[], size⟩)) := by
  have hother : ∀ q' b, t q' = some b → q' ≠ q → ∀ x ∈ q' :: b.elements, x ≠ q := by
    rintro q' b hb hne x hx rfl
    obtain rfl | hx := List.mem_cons.1 hx
    · exact hne rfl
    · exact hq q' b hb hx
  refine h.update ⟨?_, ?_, Function.update_self .., fun _ => Nat.zero_le _⟩ ?_ ?_
  · exact holds_iff.2 ⟨Function.update_self .., trivial, List.not_mem_nil,
      Function.update_self ..⟩
  · change (Function.update s.size q 0 q).toNat = 0
    rw [Function.update_self]
    rfl
  · intro q' b hb hne
    exact (h.queue q' b hb).frame
      (fun x hx => Function.update_of_ne (hother q' b hb hne x hx) _ _)
      (fun x hx => Function.update_of_ne (hother q' b hb hne x hx) _ _)
      (Function.update_of_ne hne _ _) (Function.update_of_ne hne _ _)
  · intro q' b hb hne x hx hx'
    exact hother q' b hb hne x hx' (List.mem_singleton.1 hx)

theorem full_iff (hin : QueueIn s q a) : (s.max q ≠ 0 ∧ s.max q ≤ s.size q) ↔ a.Full := by
  rw [AbstractQueue.Full, UInt16.le_iff_toNat_le, hin.size, hin.max]

theorem insertAfter_append {b c : List ℕ} (hx : x ∉ b) :
    insertAfter x e (b ++ x :: c) = b ++ x :: e :: c := by
  induction b with
  | nil => rw [List.nil_append, insertAfter, if_pos rfl, List.nil_append]
  | cons y b ih =>
    rw [List.mem_cons, not_or] at hx
    rw [List.cons_append, insertAfter, if_neg (Ne.symm hx.1), ih hx.2, List.cons_append]

/-- Where `_queue_enqueue` puts an element. -/
theorem prev_header (h : r.Holds q l) : ∃ b, q :: l = b ++ [r.prev q] := by
  obtain rfl | ⟨b, p, rfl⟩ := List.eq_nil_or_concat l
  · exact ⟨[], by rw [h.back.1]; rfl⟩
  · refine ⟨q :: b, ?_⟩
    have hlast : (b.concat p).getLastD q = p := by simp
    rw [h.back.1, hlast, List.concat_eq_append, List.cons_append]

/-- A call does to the heap what it does to the sequences. -/
theorem Represents.call (h : Represents s t) {c : QueueCall} (hc : t.Admissible c) :
    (s.call c).1 = (t.call c).1 ∧ Represents (s.call c).2 (t.call c).2 := by
  cases c with
  | init q size => exact ⟨rfl, h.init hc size⟩
  | enqueue q e =>
    obtain ⟨a, hq, hlen, hfree⟩ := hc
    have hin := h.queue q a hq
    rw [QueueHeap.call, QueueHeap.queueEnqueue, QueueTable.call, QueueCall.queue, hq,
      Option.getD_some, AbstractQueue.call]
    by_cases hfull : a.Full
    · rw [if_pos ((full_iff hin).2 hfull), if_pos hfull, ← hq, Function.update_eq_self]
      exact ⟨rfl, h⟩
    · rw [if_neg (mt (full_iff hin).1 hfull), if_neg hfull]
      obtain ⟨b, hb⟩ := prev_header hin.ring
      refine ⟨rfl, h.insert hq hb hfree hlen hfull ?_⟩
      rw [← List.cons_append, hb, List.append_assoc]
      rfl
  | insert q qe e =>
    obtain ⟨a, hq, hlen, hfree, hqe⟩ := hc
    have hin := h.queue q a hq
    rw [QueueHeap.call, QueueHeap.queueInsert, QueueTable.call, QueueCall.queue, hq,
      Option.getD_some, AbstractQueue.call]
    by_cases hfull : a.Full
    · rw [if_pos ((full_iff hin).2 hfull), if_pos hfull, ← hq, Function.update_eq_self]
      exact ⟨rfl, h⟩
    · rw [if_neg (mt (full_iff hin).1 hfull), if_neg hfull]
      refine ⟨rfl, ?_⟩
      cases qe with
      | none => exact h.insert (b := []) (c := a.elements) hq rfl hfree hlen hfull rfl
      | some x =>
        obtain ⟨b, c, hsplit⟩ := List.append_of_mem (hqe x rfl)
        have hx : x ∉ b := by
          have hnodup := (List.nodup_cons.1 hin.ring.nodup).2
          rw [hsplit, List.nodup_middle, List.nodup_cons, List.mem_append, not_or] at hnodup
          exact hnodup.1.1
        have hafter : insertAfter x e a.elements = b ++ x :: e :: c := by
          rw [hsplit, insertAfter_append hx]
        rw [Option.getD_some, Option.elim_some, hafter]
        exact h.insert (b := q :: b) (c := c) hq (by rw [hsplit]; rfl) hfree hlen hfull rfl
  | dequeue q =>
    obtain ⟨a, hq⟩ := hc
    have hin := h.queue q a hq
    rw [QueueHeap.call, QueueHeap.queueDequeue, QueueTable.call, QueueCall.queue, hq,
      Option.getD_some, AbstractQueue.call]
    obtain ⟨l, max⟩ := a
    cases l with
    | nil =>
      have hzero : s.size q = 0 := UInt16.toNat_inj.1 hin.size
      rw [if_pos hzero]
      refine ⟨rfl, ?_⟩
      change Represents s (Function.update t q (some ⟨[], max⟩))
      rwa [← hq, Function.update_eq_self]
    | cons x l =>
      have hne : s.size q ≠ 0 := by
        intro hzero
        have hsize := hin.size
        rw [hzero] at hsize
        cases hsize
      have hx : s.links.next q = x := by
        have hsplit : q :: (x :: l) = [] ++ q :: x :: l := rfl
        rw [hin.ring.next_eq hsplit, List.headD_cons]
      rw [if_neg hne, hx]
      exact ⟨rfl, h.remove (b := []) (c := l) hq rfl rfl⟩
  | unlink q e =>
    obtain ⟨a, hq, he⟩ := hc
    rw [QueueHeap.call, QueueHeap.queueUnlink, QueueTable.call, QueueCall.queue, hq,
      Option.getD_some, AbstractQueue.call]
    refine ⟨rfl, ?_⟩
    obtain ⟨b, c, hb, hsplit, herase⟩ := List.exists_erase_eq he
    rw [herase]
    rcases List.eq_nil_or_concat b with rfl | ⟨b, p, rfl⟩
    · exact h.remove (b := []) (c := c) hq (by rw [hsplit]; rfl) rfl
    · exact h.remove (b := q :: b) (c := c) (p := p) hq (by rw [hsplit]; simp) (by simp)

theorem Represents.run (h : Represents s t) {calls : List QueueCall}
    (hcalls : t.AdmissibleRun calls) :
    (s.run calls).1 = (t.run calls).1 ∧ Represents (s.run calls).2 (t.run calls).2 := by
  induction calls generalizing s t with
  | nil => exact ⟨rfl, h⟩
  | cons c calls ih =>
    obtain ⟨hresult, hnext⟩ := h.call hcalls.1
    obtain ⟨hresults, hend⟩ := ih hnext hcalls.2
    refine ⟨?_, hend⟩
    rw [QueueHeap.run, QueueTable.run, hresult, hresults]

/-- `_queue_test` finds out whether a header and as many elements as it says form a ring, and the
operations keep the queues rings and work on them as on sequences. -/
theorem queues_kept (h : Represents s t) {calls : List QueueCall}
    (hcalls : t.AdmissibleRun calls) :
    (∀ (s : QueueHeap) (q : ℕ), s.queueTest q = .ok () ↔
      ∃ l, l.length = (s.size q).toNat ∧ Circular s.links q l) ∧
    (s.run calls).1 = (t.run calls).1 ∧
    ∀ q a, (t.run calls).2 q = some a →
      Circular (s.run calls).2.links q a.elements ∧
      ((s.run calls).2.size q).toNat = a.elements.length ∧
      (s.run calls).2.queueTest q = .ok () ∧
      ((s.run calls).2.max q ≠ 0 → (s.run calls).2.size q ≤ (s.run calls).2.max q) := by
  refine ⟨fun s q => ?_, (h.run hcalls).1, fun q a hq => ?_⟩
  · rw [queueTest_ok]
    exact exists_congr fun l => and_congr_right fun _ =>
      ⟨fun hring => Circular.of_holds hring, fun hring => hring.holds⟩
  · have hin := (h.run hcalls).2.queue q a hq
    refine ⟨Circular.of_holds hin.ring, hin.size, ?_, fun hmax => ?_⟩
    · exact queueTest_ok.2 ⟨a.elements, hin.size.symm, hin.ring⟩
    · rw [UInt16.le_iff_toNat_le, hin.size, hin.max]
      rw [hin.max] at hmax
      exact hin.bound hmax

/-- Memory without queues. -/
def noQueues : QueueHeap := ⟨⟨fun _ => 0, fun _ => 0⟩, fun _ => 0, fun _ => 0⟩

theorem noQueues_represents : Represents noQueues fun _ => none := by
  constructor
  · intro q a hq
    cases hq
  · intro q a q' a' hq
    cases hq

theorem queues_kept_one :
    (∀ (s : QueueHeap) (q : ℕ), s.queueTest q = .ok () ↔
      ∃ l, l.length = (s.size q).toNat ∧ Circular s.links q l) ∧
    (noQueues.run [.init 8 1, .enqueue 8 9]).1 =
      (QueueTable.run (fun _ => none) [.init 8 1, .enqueue 8 9]).1 ∧
    ∀ q a, (QueueTable.run (fun _ => none) [.init 8 1, .enqueue 8 9]).2 q = some a →
      Circular (noQueues.run [.init 8 1, .enqueue 8 9]).2.links q a.elements ∧
      ((noQueues.run [.init 8 1, .enqueue 8 9]).2.size q).toNat = a.elements.length ∧
      (noQueues.run [.init 8 1, .enqueue 8 9]).2.queueTest q = .ok () ∧
      ((noQueues.run [.init 8 1, .enqueue 8 9]).2.max q ≠ 0 →
        (noQueues.run [.init 8 1, .enqueue 8 9]).2.size q ≤
          (noQueues.run [.init 8 1, .enqueue 8 9]).2.max q) := by
  have htable : (QueueTable.call (fun _ => none) (.init 8 1)).2 =
      Function.update (fun _ => none) 8 (some ⟨[], 1⟩) := rfl
  refine queues_kept noQueues_represents ⟨fun q' a hq => ?_, ⟨⟨[], 1⟩, ?_, ?_, ?_⟩, trivial⟩
  · cases hq
  · rw [htable, Function.update_self]
  · decide
  · intro q a hq
    rw [htable] at hq
    by_cases hqq : q = 8
    · rw [hqq, Function.update_self, Option.some.injEq] at hq
      rw [hqq, ← hq]
      decide
    · rw [Function.update_of_ne hqq] at hq
      cases hq

end Sched
end Mqx
