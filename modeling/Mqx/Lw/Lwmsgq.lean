import Mqx.Library.RingBuffer
import Mqx.Lw.Objects

/-!
# Lightweight message queues

The messages lie in a ring behind the queue's structure. Between two points at which the
scheduler may run, a call of `_lwmsgq_send` or `_lwmsgq_receive` either copies a message
or puts its task on a queue of waiting tasks; a task that comes back from waiting looks
again whether there is room, or a message. The system keeps the calls that are waiting and
the sequences of the messages that were put in and taken out.
-/

namespace Mqx.Lw

open Mqx.Sched

abbrev Word := BitVec 32

/-- The loop `*to_ptr++ = *from_ptr++` into the queue; `message` is the caller's memory. -/
def copyIn : ℕ → ℕ → (ℕ → Word) → (ℕ → Word) → ℕ → Word
  | 0, _, _, mem => mem
  | i + 1, dst, message, mem =>
    copyIn i (dst + sizeofMaxType) (fun j => message (j + 1)) (Function.update mem dst (message 0))

/-- The same loop out of the queue: the words that reach the caller. -/
def copyOut : ℕ → ℕ → (ℕ → Word) → List Word
  | 0, _, _ => []
  | i + 1, src, mem => mem src :: copyOut i (src + sizeofMaxType) mem

/-- The first words of the caller's memory. -/
def words (size : ℕ) (message : ℕ → Word) : List Word := (List.range size).map message

/-- `LWMSGQ_SEND_BLOCK_ON_FULL` and `LWMSGQ_SEND_BLOCK_ON_SEND`. -/
structure SendFlags where
  blockOnFull : Bool
  blockOnSend : Bool

namespace Lwmsgq

variable (o : Lwmsgq)

/-- `LWMSGQ_IS_FULL`. -/
def IsFull : Prop := o.maxSize ≤ o.currentSize

/-- `LWMSGQ_IS_EMPTY`. -/
def IsEmpty : Prop := o.currentSize = 0

instance : Decidable o.IsFull := inferInstanceAs (Decidable (_ ≤ _))
instance : Decidable o.IsEmpty := inferInstanceAs (Decidable (_ = _))

/-- A location moves by one message and returns to the start at the end. -/
def advance (loc : ℕ) : ℕ :=
  let loc := (loc + sizeofMaxType * o.msgSize) % 2 ^ 32
  if o.msgEndLoc ≤ loc then o.msgStartLoc else loc

end Lwmsgq

/-- How a waiting writer is woken: it leaves the queue, `INFO` is cleared and it becomes
ready. Writers are not on the timeout queue, and it is not looked at. -/
def wakeWriter (k : KernelData) (q t : ℕ) : KernelData :=
  let k := k.queueRemove q t
  (k.setTd t { k.td t with info := 0 }).taskReady t

/-- The first waiting reader of the queue, if there is one, is made ready. -/
def wakeFirstReader (k : KernelData) (q : ℕ) : KernelData :=
  match k.queues (waitingReaders q) with
  | t :: _ => k.activate (waitingReaders q) t
  | [] => k

/-- The first waiting writer of the queue, if there is one, is made ready. -/
def wakeFirstWriter (k : KernelData) (q : ℕ) : KernelData :=
  match k.queues (waitingWriters q) with
  | t :: _ => wakeWriter k (waitingWriters q) t
  | [] => k

/-- `_task_block`. -/
def taskBlock (k : KernelData) : KernelData :=
  (k.setTd k.activePtr { k.td k.activePtr with state := .blocked }).unlink k.activePtr

/-- A call whose task waits: what it was called with. -/
inductive MsgqCall
  | send (q : ℕ) (message : ℕ → Word) (flags : SendFlags)
  | receive (q : ℕ) (timed : Bool)

/-- The kernel, the memory by address, the waiting calls, and for each queue the messages
that were accepted and the messages that were returned. -/
structure MsgqSys where
  lw : LwData
  mem : ℕ → Word
  call : ℕ → Option MsgqCall
  accepted : ℕ → List (List Word)
  returned : ℕ → List (List Word)

namespace MsgqSys

variable (c : MsgqSys)

/-- `_lwmsgq_send`, when there is room: the message is copied, a waiting reader is woken. -/
def put (q : ℕ) (message : ℕ → Word) (flags : SendFlags) : MsgqSys :=
  let o := c.lw.lwmsgq q
  let k := wakeFirstReader c.lw.k q
  { c with
    lw := { c.lw with k := if flags.blockOnSend then taskBlock k else k }.setLwmsgq q
      { o with msgWriteLoc := o.advance o.msgWriteLoc, currentSize := o.currentSize + 1 }
    mem := copyIn o.msgSize o.msgWriteLoc message c.mem
    call := Function.update c.call c.lw.k.activePtr none
    accepted := Function.update c.accepted q (c.accepted q ++ [words o.msgSize message]) }

/-- `_lwmsgq_receive`, when there is a message: it is copied, a waiting writer is woken. -/
def take (q : ℕ) : MsgqSys :=
  let o := c.lw.lwmsgq q
  { c with
    lw := { c.lw with k := wakeFirstWriter c.lw.k q }.setLwmsgq q
      { o with msgReadLoc := o.advance o.msgReadLoc, currentSize := o.currentSize - 1 }
    call := Function.update c.call c.lw.k.activePtr none
    returned := Function.update c.returned q
      (c.returned q ++ [copyOut o.msgSize o.msgReadLoc c.mem]) }

/-- The active task goes to wait in a call. -/
def waitIn (call : MsgqCall) (k : KernelData) : MsgqSys :=
  { c with
    lw := { c.lw with k := k }
    call := Function.update c.call c.lw.k.activePtr (some call) }

/-- The call of the active task returns and nothing is copied. -/
def giveUp : MsgqSys := { c with call := Function.update c.call c.lw.k.activePtr none }

/-- `_lwmsgq_send`, up to a call of the scheduler. `STATE` is stored before the loop. -/
def send (q : ℕ) (message : ℕ → Word) (flags : SendFlags) : Option Status × MsgqSys :=
  let t := c.lw.k.activePtr
  if (c.lw.lwmsgq q).valid ≠ lwmsgqValid then (some .lwmsgqInvalid, c)
  else if (c.lw.lwmsgq q).IsFull then
    if flags.blockOnFull then
      (none, c.waitIn (.send q message flags)
        (c.lw.k.waitOn t .lwmsgqWriteBlocked (waitingWriters q)))
    else (some .lwmsgqFull, c)
  else (some .ok, c.put q message flags)

/-- The loop of `_lwmsgq_send`, from where the scheduler returns: it does not store
`STATE`. -/
def resumeSend (q : ℕ) (message : ℕ → Word) (flags : SendFlags) : Option Status × MsgqSys :=
  let t := c.lw.k.activePtr
  if (c.lw.lwmsgq q).IsFull then
    (none, c.waitIn (.send q message flags)
      (c.lw.k.waitOn t (c.lw.k.td t).state (waitingWriters q)))
  else (some .ok, c.put q message flags)

/-- `_lwmsgq_receive`, up to a call of the scheduler. -/
def receive (fifo : Bool) (q : ℕ) (blockOnEmpty : Bool) (timeout : Option ℕ) :
    Option Status × MsgqSys :=
  let t := c.lw.k.activePtr
  if (c.lw.lwmsgq q).valid ≠ lwmsgqValid then (some .lwmsgqInvalid, c)
  else if (c.lw.lwmsgq q).IsEmpty then
    if blockOnEmpty then
      (none, c.waitIn (.receive q timeout.isSome)
        (c.lw.k.waitFor fifo t .lwmsgqReadBlocked (waitingReaders q) timeout))
    else (some .lwmsgqEmpty, c)
  else (some .ok, c.take q)

/-- The loop of `_lwmsgq_receive`, from where the scheduler returns; `timeout` is the time
of the next wait. -/
def resumeReceive (fifo : Bool) (q : ℕ) (timeout : Option ℕ) : Option Status × MsgqSys :=
  let t := c.lw.k.activePtr
  if timeout.isSome ∧ (c.lw.k.td t).info ≠ 0 then (some .lwmsgqTimeout, c.giveUp)
  else if (c.lw.lwmsgq q).IsEmpty then
    (none, c.waitIn (.receive q timeout.isSome)
      (c.lw.k.waitFor fifo t .lwmsgqReadBlocked (waitingReaders q) timeout))
  else (some .ok, c.take q)

def tick (hw : ℕ) : MsgqSys := { c with lw := { c.lw with k := c.lw.k.timeNotifyKernel hw } }

def dispatch (u : ℕ) : MsgqSys := { c with lw := { c.lw with k := c.lw.k.dispatch u } }

end MsgqSys

/-- What runs between two dispatches: a call on one of the queues, by the active task or, if
it cannot block, by an interrupt handler; the rest of a call whose task has been woken;
the tick. -/
inductive MsgqOp (fifo : Bool) (queues : Set ℕ) : MsgqSys → MsgqSys → Prop
  | send {c : MsgqSys} {q : ℕ} (message : ℕ → Word) (flags : SendFlags) : q ∈ queues →
      c.call c.lw.k.activePtr = none → MsgqOp fifo queues c (c.send q message flags).2
  | sendIsr {c : MsgqSys} {q : ℕ} (message : ℕ → Word) : q ∈ queues →
      MsgqOp fifo queues c
        { (c.send q message ⟨false, false⟩).2 with call := c.call }
  | resumeSend {c : MsgqSys} {q : ℕ} {message : ℕ → Word} {flags : SendFlags} : q ∈ queues →
      c.call c.lw.k.activePtr = some (.send q message flags) →
      MsgqOp fifo queues c (c.resumeSend q message flags).2
  | receive {c : MsgqSys} {q : ℕ} (blockOnEmpty : Bool) (timeout : Option ℕ) : q ∈ queues →
      c.call c.lw.k.activePtr = none →
      MsgqOp fifo queues c (c.receive fifo q blockOnEmpty timeout).2
  | resumeReceive {c : MsgqSys} {q : ℕ} (timeout : Option ℕ) : q ∈ queues →
      c.call c.lw.k.activePtr = some (.receive q timeout.isSome) →
      MsgqOp fifo queues c (c.resumeReceive fifo q timeout).2
  | tick {c : MsgqSys} (hw : ℕ) : MsgqOp fifo queues c (c.tick hw)

/-- After each of them the dispatcher chooses a task from the ready queues. -/
inductive MsgqStep (fifo : Bool) (queues : Set ℕ) : MsgqSys → MsgqSys → Prop
  | mk {c c' : MsgqSys} (u p : ℕ) : MsgqOp fifo queues c c' → u ∈ c'.lw.k.readyQ p →
      MsgqStep fifo queues c (c'.dispatch u)

/-! ## Copying -/

theorem copyIn_of_outside {i dst : ℕ} {message mem : ℕ → Word} {a : ℕ}
    (h : a < dst ∨ dst + sizeofMaxType * i ≤ a) : copyIn i dst message mem a = mem a := by
  induction i generalizing dst message mem with
  | zero => rfl
  | succ i ih =>
    have hsize : sizeofMaxType * (i + 1) = sizeofMaxType + sizeofMaxType * i := by ring
    have hpos : 0 < sizeofMaxType := by decide
    rw [copyIn, ih (by omega), Function.update_of_ne (by omega)]

theorem copyOut_congr {i src : ℕ} {mem mem' : ℕ → Word}
    (h : ∀ a, src ≤ a → a < src + sizeofMaxType * i → mem' a = mem a) :
    copyOut i src mem' = copyOut i src mem := by
  induction i generalizing src with
  | zero => rfl
  | succ i ih =>
    have hsize : sizeofMaxType * (i + 1) = sizeofMaxType + sizeofMaxType * i := by ring
    have hpos : 0 < sizeofMaxType := by decide
    rw [copyOut, copyOut, h src le_rfl (by omega)]
    rw [ih fun a h₁ h₂ => h a (by omega) (by omega)]

/-- What is copied in is copied out. -/
theorem copyOut_copyIn {i dst : ℕ} {message mem : ℕ → Word} :
    copyOut i dst (copyIn i dst message mem) = words i message := by
  induction i generalizing dst message mem with
  | zero => rfl
  | succ i ih =>
    rw [copyIn, copyOut, ih, copyIn_of_outside (Or.inl (Nat.lt_add_of_pos_right (by decide))),
      Function.update_self]
    simp [words, List.range_succ_eq_map, Function.comp_def]

/-! ## The ring -/

namespace MsgqSys

/-- The message in a slot of the ring. -/
def slot (c : MsgqSys) (q i : ℕ) : List Word :=
  copyOut (c.lw.lwmsgq q).msgSize
    ((c.lw.lwmsgq q).msgStartLoc + sizeofMaxType * ((c.lw.lwmsgq q).msgSize * i)) c.mem

end MsgqSys

/-- The shape of a queue for `n` messages of `size` words that lies in memory. -/
structure MsgqShape (q n size : ℕ) (o : Lwmsgq) : Prop where
  size_pos : 0 < size
  msgSize : o.msgSize = size
  maxSize : o.maxSize = n
  msgStartLoc : o.msgStartLoc = q + sizeofLwmsgq
  msgEndLoc : o.msgEndLoc = q + sizeofLwmsgq + sizeofMaxType * (size * n)
  fits : q + sizeofLwmsgq + sizeofMaxType * (size * n) < 2 ^ 32

/-- The ring holds the messages that were accepted and not yet returned. -/
structure MsgqInv (q n size : ℕ) (c : MsgqSys) (pos : ℕ) (pending : List (List Word)) : Prop where
  shape : MsgqShape q n size (c.lw.lwmsgq q)
  holds : HoldsFrom n (c.slot q) pos pending
  currentSize : (c.lw.lwmsgq q).currentSize = pending.length
  msgReadLoc : (c.lw.lwmsgq q).msgReadLoc =
    q + sizeofLwmsgq + sizeofMaxType * (size * pos)
  msgWriteLoc : (c.lw.lwmsgq q).msgWriteLoc =
    q + sizeofLwmsgq + sizeofMaxType * (size * ((pos + pending.length) % n))
  accepted : c.accepted q = c.returned q ++ pending

theorem MsgqShape.advance {q n size : ℕ} {o : Lwmsgq} (h : MsgqShape q n size o) {i : ℕ}
    (hi : i < n) : o.advance (q + sizeofLwmsgq + sizeofMaxType * (size * i)) =
      q + sizeofLwmsgq + sizeofMaxType * (size * ((i + 1) % n)) := by
  have hnext : q + sizeofLwmsgq + sizeofMaxType * (size * i) + sizeofMaxType * size =
      q + sizeofLwmsgq + sizeofMaxType * (size * (i + 1)) := by ring
  have hle : sizeofMaxType * (size * (i + 1)) ≤ sizeofMaxType * (size * n) :=
    Nat.mul_le_mul_left _ (Nat.mul_le_mul_left _ hi)
  have hfits := h.fits
  unfold Lwmsgq.advance
  rw [h.msgSize, h.msgEndLoc, h.msgStartLoc, hnext, Nat.mod_eq_of_lt (by omega)]
  rcases Nat.lt_or_ge (i + 1) n with hlt | hge
  · have hstrict : sizeofMaxType * (size * (i + 1)) < sizeofMaxType * (size * n) :=
      Nat.mul_lt_mul_of_pos_left (Nat.mul_lt_mul_of_pos_left hlt h.size_pos) (by decide)
    rw [if_neg (by omega), Nat.mod_eq_of_lt hlt]
  · have hn : i + 1 = n := by omega
    rw [hn, if_pos le_rfl, Nat.mod_self]
    simp

namespace MsgqInv

variable {q n size pos : ℕ} {c c' : MsgqSys} {pending : List (List Word)}

/-- Nothing but the queue, the memory and the two sequences matters. -/
theorem congr (i : MsgqInv q n size c pos pending) (ho : c'.lw.lwmsgq q = c.lw.lwmsgq q)
    (hm : c'.mem = c.mem) (ha : c'.accepted q = c.accepted q)
    (hr : c'.returned q = c.returned q) : MsgqInv q n size c' pos pending := by
  have hslot : c'.slot q = c.slot q := by
    funext j
    unfold MsgqSys.slot
    rw [ho, hm]
  constructor
  · exact ho ▸ i.shape
  · exact hslot ▸ i.holds
  · rw [ho, i.currentSize]
  · rw [ho, i.msgReadLoc]
  · rw [ho, i.msgWriteLoc]
  · rw [ha, hr, i.accepted]

/-- Two slots do not overlap. -/
theorem slot_disjoint {j k a start : ℕ} (hjk : j ≠ k)
    (h₁ : start + sizeofMaxType * (size * j) ≤ a)
    (h₂ : a < start + sizeofMaxType * (size * j) + sizeofMaxType * size) :
    a < start + sizeofMaxType * (size * k) ∨
      start + sizeofMaxType * (size * k) + sizeofMaxType * size ≤ a := by
  have hnext : ∀ x, sizeofMaxType * (size * x) + sizeofMaxType * size =
      sizeofMaxType * (size * (x + 1)) := fun x => by ring
  rcases Nat.lt_or_gt_of_ne hjk with hlt | hgt
  · have hle : sizeofMaxType * (size * (j + 1)) ≤ sizeofMaxType * (size * k) :=
      Nat.mul_le_mul_left _ (Nat.mul_le_mul_left _ hlt)
    have hj := hnext j
    omega
  · have hle : sizeofMaxType * (size * (k + 1)) ≤ sizeofMaxType * (size * j) :=
      Nat.mul_le_mul_left _ (Nat.mul_le_mul_left _ hgt)
    have hk := hnext k
    omega

/-- A message is put into the slot behind the last one. -/
theorem put (i : MsgqInv q n size c pos pending) (hfull : ¬(c.lw.lwmsgq q).IsFull)
    (message : ℕ → Word) (flags : SendFlags) :
    MsgqInv q n size (c.put q message flags) pos (pending ++ [words size message]) := by
  have hlt : pending.length < n := by
    unfold Lwmsgq.IsFull at hfull
    rw [i.shape.maxSize, i.currentSize] at hfull
    omega
  obtain ⟨w, hw⟩ : ∃ w, (pos + pending.length) % n = w := ⟨_, rfl⟩
  have hwn : w < n := hw ▸ Nat.mod_lt _ (Nat.zero_lt_of_lt hlt)
  have ho : (c.put q message flags).lw.lwmsgq q = { c.lw.lwmsgq q with
      msgWriteLoc := (c.lw.lwmsgq q).advance (c.lw.lwmsgq q).msgWriteLoc
      currentSize := (c.lw.lwmsgq q).currentSize + 1 } := by
    simp [MsgqSys.put, LwData.setLwmsgq]
  have hmem : (c.put q message flags).mem =
      copyIn size (q + sizeofLwmsgq + sizeofMaxType * (size * w)) message c.mem := by
    simp only [MsgqSys.put, i.shape.msgSize, i.msgWriteLoc, hw]
  have hslot : ∀ j, (c.put q message flags).slot q j =
      copyOut size (q + sizeofLwmsgq + sizeofMaxType * (size * j))
        (c.put q message flags).mem := by
    intro j
    simp only [MsgqSys.slot, ho, i.shape.msgSize, i.shape.msgStartLoc]
  constructor
  · rw [ho]
    exact ⟨i.shape.size_pos, i.shape.msgSize, i.shape.maxSize, i.shape.msgStartLoc,
      i.shape.msgEndLoc, i.shape.fits⟩
  · apply i.holds.push hlt
    · rw [hw, hslot, hmem]
      exact copyOut_copyIn
    · intro j hj hjw
      rw [hw] at hjw
      rw [hslot, hmem, MsgqSys.slot, i.shape.msgSize, i.shape.msgStartLoc]
      apply copyOut_congr
      intro a h₁ h₂
      exact copyIn_of_outside (slot_disjoint hjw h₁ h₂)
  · rw [ho, List.length_append, i.currentSize]
    rfl
  · rw [ho]
    exact i.msgReadLoc
  · rw [ho]
    simp only [i.msgWriteLoc, hw]
    rw [i.shape.advance hwn, List.length_append, List.length_singleton, ← hw, Nat.mod_add_mod,
      Nat.add_assoc pos]
  · simp [MsgqSys.put, i.accepted, i.shape.msgSize]

/-- The first message is taken. -/
theorem take (i : MsgqInv q n size c pos pending) (hempty : ¬(c.lw.lwmsgq q).IsEmpty) :
    ∃ m rest, pending = m :: rest ∧ MsgqInv q n size (c.take q) ((pos + 1) % n) rest := by
  have hne : pending ≠ [] := by
    rintro rfl
    exact hempty i.currentSize
  obtain ⟨m, rest, hpending⟩ := List.exists_cons_of_ne_nil hne
  refine ⟨m, rest, hpending, ?_⟩
  subst hpending
  obtain ⟨hm, hholds⟩ := i.holds.pop
  have ho : (c.take q).lw.lwmsgq q = { c.lw.lwmsgq q with
      msgReadLoc := (c.lw.lwmsgq q).advance (c.lw.lwmsgq q).msgReadLoc
      currentSize := (c.lw.lwmsgq q).currentSize - 1 } := by
    simp [MsgqSys.take, LwData.setLwmsgq]
  have hslot : (c.take q).slot q = c.slot q := by
    funext j
    simp only [MsgqSys.slot, ho]
    rfl
  have hread : copyOut (c.lw.lwmsgq q).msgSize (c.lw.lwmsgq q).msgReadLoc c.mem = m := by
    rw [← hm, MsgqSys.slot, i.msgReadLoc, i.shape.msgStartLoc, i.shape.msgSize]
  constructor
  · rw [ho]
    exact ⟨i.shape.size_pos, i.shape.msgSize, i.shape.maxSize, i.shape.msgStartLoc,
      i.shape.msgEndLoc, i.shape.fits⟩
  · rw [hslot]
    exact hholds
  · rw [ho]
    simp [i.currentSize]
  · rw [ho]
    simp only [i.msgReadLoc]
    exact i.shape.advance i.holds.pos_lt
  · rw [ho]
    simp only [i.msgWriteLoc, List.length_cons]
    rw [Nat.mod_add_mod, Nat.add_assoc pos, Nat.add_comm 1]
  · simp [MsgqSys.take, i.accepted, hread]

/-- Whatever runs between two dispatches, the ring holds what it should. -/
theorem op {fifo : Bool} (i : MsgqInv q n size c pos pending) (h : MsgqOp fifo {q} c c') :
    ∃ pos' pending', MsgqInv q n size c' pos' pending' := by
  cases h with
  | @send q' message flags hq _ =>
    obtain rfl : q' = q := hq
    unfold MsgqSys.send
    simp only
    split_ifs with hvalid hfull hblock
    · exact ⟨_, _, i⟩
    · exact ⟨_, _, i.congr rfl rfl rfl rfl⟩
    · exact ⟨_, _, i⟩
    · exact ⟨_, _, i.put hfull message flags⟩
  | @sendIsr q' message hq =>
    obtain rfl : q' = q := hq
    unfold MsgqSys.send
    simp only
    split_ifs with hvalid hfull hblock
    · exact ⟨_, _, i.congr rfl rfl rfl rfl⟩
    · exact absurd hblock (by decide)
    · exact ⟨_, _, i.congr rfl rfl rfl rfl⟩
    · exact ⟨_, _, (i.put hfull message ⟨false, false⟩).congr rfl rfl rfl rfl⟩
  | @resumeSend q' message flags hq _ =>
    obtain rfl : q' = q := hq
    unfold MsgqSys.resumeSend
    simp only
    split_ifs with hfull
    · exact ⟨_, _, i.congr rfl rfl rfl rfl⟩
    · exact ⟨_, _, i.put hfull message flags⟩
  | @receive q' blockOnEmpty timeout hq _ =>
    obtain rfl : q' = q := hq
    unfold MsgqSys.receive
    simp only
    split_ifs with hvalid hempty hblock
    · exact ⟨_, _, i⟩
    · exact ⟨_, _, i.congr rfl rfl rfl rfl⟩
    · exact ⟨_, _, i⟩
    · obtain ⟨m, rest, -, hinv⟩ := i.take hempty
      exact ⟨_, _, hinv⟩
  | @resumeReceive q' timeout hq _ =>
    obtain rfl : q' = q := hq
    unfold MsgqSys.resumeReceive
    simp only
    split_ifs with htimeout hempty
    · exact ⟨_, _, i.congr rfl rfl rfl rfl⟩
    · exact ⟨_, _, i.congr rfl rfl rfl rfl⟩
    · obtain ⟨m, rest, -, hinv⟩ := i.take hempty
      exact ⟨_, _, hinv⟩
  | tick hw => exact ⟨_, _, i.congr rfl rfl rfl rfl⟩

theorem steps {fifo : Bool} (i : MsgqInv q n size c pos pending)
    (h : Relation.ReflTransGen (MsgqStep fifo {q}) c c') :
    ∃ pos' pending', MsgqInv q n size c' pos' pending' := by
  induction h with
  | refl => exact ⟨pos, pending, i⟩
  | tail _ hstep ih =>
    obtain ⟨pos', pending', i'⟩ := ih
    obtain ⟨u, p, hop, -⟩ := hstep
    obtain ⟨pos'', pending'', i''⟩ := i'.op hop
    exact ⟨pos'', pending'', i''.congr rfl rfl rfl rfl⟩

end MsgqInv

/-- A queue that `_lwmsgq_init` has just initialised in memory large enough for it. -/
structure MsgqInit (q n size : ℕ) (c : MsgqSys) : Prop where
  n_pos : 1 ≤ n
  size_pos : 1 ≤ size
  fits : q + sizeofLwmsgq + sizeofMaxType * (size * n) < 2 ^ 32
  fresh : FreshLwmsgq c.lw q n size
  accepted : c.accepted q = []
  returned : c.returned q = []

theorem MsgqInit.inv {q n size : ℕ} {c : MsgqSys} (h : MsgqInit q n size c) :
    MsgqInv q n size c 0 [] := by
  obtain ⟨hsize, hmax, hcur, hstart, hend, hwrite, hread, -, -⟩ := h.fresh
  have hfits := h.fits
  have hloc : (q + sizeofLwmsgq) % 2 ^ 32 = q + sizeofLwmsgq := Nat.mod_eq_of_lt (by omega)
  rw [hloc] at hstart hend hwrite hread
  rw [Nat.mod_eq_of_lt hfits] at hend
  constructor
  · exact ⟨h.size_pos, hsize, hmax, hstart, hend, hfits⟩
  · exact HoldsFrom.nil h.n_pos
  · exact hcur
  · simpa using hread
  · simpa using hwrite
  · simp [h.accepted, h.returned]

/-- A bounded queue: what comes out is what went in, in order; the size counts the
difference; the write location is as many messages behind the read location. -/
structure MsgqSpec (q n size : ℕ) (c : MsgqSys) : Prop where
  order : c.returned q <+: c.accepted q
  count : (c.lw.lwmsgq q).currentSize + (c.returned q).length = (c.accepted q).length
  bounded : (c.lw.lwmsgq q).currentSize ≤ n
  locations : ∃ pos < n,
    (c.lw.lwmsgq q).msgReadLoc =
      (c.lw.lwmsgq q).msgStartLoc + sizeofMaxType * (pos * size) ∧
    (c.lw.lwmsgq q).msgWriteLoc = (c.lw.lwmsgq q).msgStartLoc +
      sizeofMaxType * ((pos + (c.lw.lwmsgq q).currentSize) % n * size)

theorem MsgqInv.spec {q n size pos : ℕ} {c : MsgqSys} {pending : List (List Word)}
    (i : MsgqInv q n size c pos pending) : MsgqSpec q n size c := by
  constructor
  · rw [i.accepted]
    exact List.prefix_append _ _
  · rw [i.accepted, i.currentSize, List.length_append, Nat.add_comm]
  · rw [i.currentSize]
    exact i.holds.length_le
  · refine ⟨pos, i.holds.pos_lt, ?_, ?_⟩
    · rw [i.msgReadLoc, i.shape.msgStartLoc, Nat.mul_comm pos]
    · rw [i.msgWriteLoc, i.shape.msgStartLoc, i.currentSize, Nat.mul_comm _ size]

/-- Three tasks and a queue for one message of two words. -/
def msgqBoot : MsgqSys where
  lw := ((bootLw 3).lwmsgqInitInternal 0x300 1 2 false).2
  mem _ := 0
  call _ := none
  accepted _ := []
  returned _ := []

theorem msgqBoot_init : MsgqInit 0x300 1 2 msgqBoot :=
  ⟨by decide, by decide, by decide, ⟨by decide, by decide, by decide, by decide, by decide,
    by decide, by decide, by decide, by decide⟩, rfl, rfl⟩

def blockOnFull : SendFlags := ⟨true, false⟩

/-- The message of the numbers from `m` on. -/
def numbers (m : ℕ) : ℕ → Word := fun j => BitVec.ofNat 32 (m + j)

/-- A task fills the queue and waits to send a second message; another task takes the first
one; the writer goes on. -/
def msgqBootRun : MsgqSys :=
  let c := ((msgqBoot.send 0x300 (numbers 10) blockOnFull).2).dispatch 1
  let c := ((c.send 0x300 (numbers 20) blockOnFull).2).dispatch 2
  let c := ((c.receive false 0x300 true none).2).dispatch 1
  ((c.resumeSend 0x300 (numbers 20) blockOnFull).2).dispatch 1

end Mqx.Lw
