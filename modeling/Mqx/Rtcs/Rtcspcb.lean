import Mathlib.Data.Finset.Card
import Mathlib.Tactic.Common
import Mqx.Library.Forest

/-!
# Packet control blocks

Model of `rtcspcb.c` as far as it decides when a block goes back to its partition, and a buffer to
its link layer. The contents of a packet, its autofreed fragments and the request of a blocked
sender are left out. `Block` are the blocks of the partition, `Buffer` the buffers of the link
layers. A release of what is not there to be released is a fault.
-/

namespace Mqx
namespace Rtcs
namespace Rtcspcb

open Function (update)

variable {Block Buffer : Type*} [DecidableEq Block] [DecidableEq Buffer]

/-- A pointer to a `PCB`: the one inside a block, or one of a link layer. -/
inductive PcbPtr (Block Buffer : Type*)
  | inner (p : Block)
  | outer (b : Buffer)
deriving DecidableEq

/-- The functions that `FREE` of a `PCB` points to. -/
inductive FreeFn
  | freeInternal
  | linkLayer
deriving DecidableEq

/-- `FREE` and `PRIVATE` of a `PCB`; `priv` is `none` for a private pointer of a link layer. -/
structure Pcb (Block : Type*) where
  free : Option FreeFn
  priv : Option Block

/-- `RTCSPCB`. -/
structure RtcspcbFields (Block Buffer : Type*) where
  pcbptr : PcbPtr Block Buffer
  pcbFree : Option FreeFn
  pcbPrivate : Option Block
  pcbOrig : Option (PcbPtr Block Buffer)
  dupptr : Option Block
  dupcount : ℕ
  numFrags : ℕ

/-- The blocks, the `PCB`s, the blocks that the partition has given out, and the buffers that the
link layers have passed up. -/
structure Memory (Block Buffer : Type*) where
  rtcspcb : Block → RtcspcbFields Block Buffer
  pcb : PcbPtr Block Buffer → Pcb Block
  used : Finset Block
  buffers : Finset Buffer

inductive Fault
  | fuel
  | released
  | notFree
deriving DecidableEq

variable (m : Memory Block Buffer)

/-- A write to the fields of a block. -/
def Memory.set (p : Block) (r : RtcspcbFields Block Buffer) : Memory Block Buffer :=
  { m with rtcspcb := update m.rtcspcb p r }

/-- A write to `FREE` and `PRIVATE`. -/
def Memory.setPcb (ptr : PcbPtr Block Buffer) (pcb : Pcb Block) : Memory Block Buffer :=
  { m with pcb := update m.pcb ptr pcb }

/-- `RTCS_part_alloc` returns the block. -/
def partAlloc (p : Block) : Except Fault (Memory Block Buffer) :=
  if p ∈ m.used then .error .notFree else .ok { m with used := insert p m.used }

/-- `RTCS_part_free`. -/
def partFree (p : Block) : Except Fault (Memory Block Buffer) :=
  if p ∈ m.used then .ok { m with used := m.used.erase p } else .error .released

/-- The link layer gets its buffer back. -/
def linkFree : PcbPtr Block Buffer → Except Fault (Memory Block Buffer)
  | .inner _ => .error .released
  | .outer b =>
    if b ∈ m.buffers then .ok { m with buffers := m.buffers.erase b } else .error .released

/-- `PCB_free`, with `RTCSPCB_free_internal` as an argument. -/
def pcbFree (free : Memory Block Buffer → PcbPtr Block Buffer → Except Fault (Memory Block Buffer))
    (ptr : PcbPtr Block Buffer) : Except Fault (Memory Block Buffer) :=
  match (m.pcb ptr).free with
  | some .freeInternal => free m ptr
  | some .linkLayer => linkFree m ptr
  | none => .error .released

/-- A duplicate drops the count of its original. -/
def freeDupptr (free : Memory Block Buffer → PcbPtr Block Buffer → Except Fault (Memory Block Buffer))
    (p : Block) : Except Fault (Memory Block Buffer) :=
  match (m.rtcspcb p).dupptr with
  | none => .ok m
  | some q => do
    let m ← pcbFree m free (m.rtcspcb q).pcbptr
    .ok (m.set p { m.rtcspcb p with dupptr := none })

/-- A block that has been forked frees the `PCB` of the link layer. -/
def freeOrig (free : Memory Block Buffer → PcbPtr Block Buffer → Except Fault (Memory Block Buffer))
    (p : Block) : Except Fault (Memory Block Buffer) :=
  match (m.rtcspcb p).pcbOrig with
  | none => .ok m
  | some ptr => do
    let m ← pcbFree m free ptr
    .ok (m.set p { m.rtcspcb p with pcbOrig := none })

/-- A received block gives its `PCB` back as it came. -/
def freeReceived
    (free : Memory Block Buffer → PcbPtr Block Buffer → Except Fault (Memory Block Buffer))
    (inpcb : PcbPtr Block Buffer) (p : Block) : Except Fault (Memory Block Buffer) :=
  match (m.rtcspcb p).pcbFree with
  | none => .ok m
  | some f => pcbFree (m.setPcb inpcb ⟨some f, (m.rtcspcb p).pcbPrivate⟩) free inpcb

/-- `RTCSPCB_free_internal`. -/
def freeInternal : ℕ → Memory Block Buffer → PcbPtr Block Buffer →
    Except Fault (Memory Block Buffer)
  | 0, _, _ => .error .fuel
  | fuel + 1, m, inpcb =>
    match (m.pcb inpcb).priv with
    | none => .error .released
    | some p =>
      if (m.rtcspcb p).dupcount ≠ 0 then
        .ok (m.set p { m.rtcspcb p with dupcount := (m.rtcspcb p).dupcount - 1 })
      else do
        let m ← freeDupptr m (freeInternal fuel) p
        let m ← freeOrig m (freeInternal fuel) p
        let m ← freeReceived m (freeInternal fuel) inpcb p
        partFree m p

/-- `RTCSPCB_free`. -/
def rtcspcbFree (fuel : ℕ) (p : Block) : Except Fault (Memory Block Buffer) :=
  pcbFree m (freeInternal fuel) (m.rtcspcb p).pcbptr

/-- `RTCSPCB_alloc_send`. -/
def allocSend (p : Block) : Except Fault (Memory Block Buffer) := do
  let m ← partAlloc m p
  .ok (m.set p { m.rtcspcb p with pcbptr := .inner p, numFrags := 1, pcbFree := none })

/-- `RTCSPCB_alloc_recv`. -/
def allocRecv (p : Block) (b : Buffer) : Except Fault (Memory Block Buffer) := do
  let m ← partAlloc { m with buffers := insert b m.buffers } p
  let inpcb := m.pcb (.outer b)
  let m := m.set p
    { m.rtcspcb p with
      pcbptr := .outer b, numFrags := 0, pcbFree := inpcb.free, pcbPrivate := inpcb.priv }
  .ok (m.setPcb (.outer b) ⟨some .freeInternal, some p⟩)

/-- `RTCSPCB_depend`; `none` where it returns `RTCSERR_PCB_DEPEND`. -/
def depend (p q : Block) : Option (Memory Block Buffer) :=
  if (m.rtcspcb p).dupptr ≠ none then none
  else
    let m := m.set p { m.rtcspcb p with dupptr := some q }
    some (m.set q { m.rtcspcb q with dupcount := (m.rtcspcb q).dupcount + 1 })

/-- `RTCSPCB_alloc_dup`. -/
def allocDup (p q : Block) : Except Fault (Memory Block Buffer) := do
  let m ← partAlloc m p
  let m := m.set p (m.rtcspcb q)
  let m := m.setPcb (.inner p) ⟨(m.pcb (.inner q)).free, some p⟩
  let m := m.set p
    { m.rtcspcb p with pcbptr := .inner p, pcbFree := none, pcbOrig := none, dupcount := 0 }
  .ok ((depend m p q).getD m)

/-- `RTCSPCB_fork`, with the number of fragments that its loop counts; `none` where it returns
`RTCSERR_PCB_FORK`. -/
def fork (p : Block) (frag : ℕ) : Option (Memory Block Buffer) :=
  let r := m.rtcspcb p
  if r.numFrags ≠ 0 then none
  else if r.pcbptr = .inner p then none
  else
    let rx := r.pcbptr
    let m :=
      if r.dupptr = none then
        (m.setPcb rx ⟨r.pcbFree, r.pcbPrivate⟩).set p { r with pcbOrig := some rx }
      else m
    some (m.set p
      { m.rtcspcb p with pcbFree := none, pcbptr := .inner p, numFrags := frag + 1 })

set_option linter.unusedSectionVars false

/-! ## Blocks and their buffers -/

variable {m} {m' : Memory Block Buffer} {live live' held : Finset Block}
  {link : Block → Option Buffer} {rank : Block → ℕ} {p q x : Block} {b : Buffer}

@[simp] theorem set_rtcspcb (r : RtcspcbFields Block Buffer) :
    (m.set p r).rtcspcb = update m.rtcspcb p r := rfl

@[simp] theorem set_pcb (r : RtcspcbFields Block Buffer) : (m.set p r).pcb = m.pcb := rfl

@[simp] theorem set_used (r : RtcspcbFields Block Buffer) : (m.set p r).used = m.used := rfl

@[simp] theorem set_buffers (r : RtcspcbFields Block Buffer) : (m.set p r).buffers = m.buffers := rfl

@[simp] theorem setPcb_rtcspcb (ptr : PcbPtr Block Buffer) (pcb : Pcb Block) :
    (m.setPcb ptr pcb).rtcspcb = m.rtcspcb := rfl

@[simp] theorem setPcb_pcb (ptr : PcbPtr Block Buffer) (pcb : Pcb Block) :
    (m.setPcb ptr pcb).pcb = update m.pcb ptr pcb := rfl

@[simp] theorem setPcb_used (ptr : PcbPtr Block Buffer) (pcb : Pcb Block) :
    (m.setPcb ptr pcb).used = m.used := rfl

@[simp] theorem setPcb_buffers (ptr : PcbPtr Block Buffer) (pcb : Pcb Block) :
    (m.setPcb ptr pcb).buffers = m.buffers := rfl

/-- How a block holds its buffer: not at all, as it was received, or forked. -/
inductive Linked (m : Memory Block Buffer) (x : Block) : Option Buffer → Prop
  | sent (hptr : (m.rtcspcb x).pcbptr = .inner x) (hfree : (m.rtcspcb x).pcbFree = none)
      (horig : (m.rtcspcb x).pcbOrig = none) : Linked m x none
  | received {b : Buffer} (hb : b ∈ m.buffers) (hptr : (m.rtcspcb x).pcbptr = .outer b)
      (hfree : (m.rtcspcb x).pcbFree = some .linkLayer) (hpriv : (m.rtcspcb x).pcbPrivate = none)
      (horig : (m.rtcspcb x).pcbOrig = none)
      (hpcb : m.pcb (.outer b) = ⟨some .freeInternal, some x⟩) : Linked m x (some b)
  | forked {b : Buffer} (hb : b ∈ m.buffers) (hptr : (m.rtcspcb x).pcbptr = .inner x)
      (hfree : (m.rtcspcb x).pcbFree = none)
      (horig : (m.rtcspcb x).pcbOrig = some (.outer b))
      (hpcb : m.pcb (.outer b) = ⟨some .linkLayer, none⟩) : Linked m x (some b)

/-- A block that the partition has given out. -/
structure Given (link : Block → Option Buffer) (m : Memory Block Buffer) (x : Block) : Prop where
  used : x ∈ m.used
  inner : m.pcb (.inner x) = ⟨some .freeInternal, some x⟩
  linked : Linked m x (link x)

/-- A block as the partition keeps it. -/
structure Blank (m : Memory Block Buffer) (x : Block) : Prop where
  notUsed : x ∉ m.used
  inner : m.pcb (.inner x) = ⟨some .freeInternal, some x⟩
  dupptr : (m.rtcspcb x).dupptr = none
  dupcount : (m.rtcspcb x).dupcount = 0
  pcbOrig : (m.rtcspcb x).pcbOrig = none

/-- Some blocks have been released, with their buffers, and nothing happened outside. -/
structure Released (link : Block → Option Buffer) (live live' : Finset Block)
    (m m' : Memory Block Buffer) : Prop where
  sub : live' ⊆ live
  used : ∀ x, x ∈ m'.used ↔ x ∈ m.used ∧ ¬(x ∈ live ∧ x ∉ live')
  buffers : ∀ b, b ∈ m'.buffers ↔ b ∈ m.buffers ∧ ∀ x ∈ live, x ∉ live' → link x ≠ some b
  blank : ∀ x ∈ live, x ∉ live' → Blank m' x
  restored : ∀ x ∈ live, x ∉ live' → ∀ b, link x = some b →
    m'.pcb (.outer b) = ⟨some .linkLayer, none⟩
  rtcspcb : ∀ x ∉ live, m'.rtcspcb x = m.rtcspcb x
  inner : ∀ x ∉ live, m'.pcb (.inner x) = m.pcb (.inner x)
  outer : ∀ b, (∀ x ∈ live, link x ≠ some b) → m'.pcb (.outer b) = m.pcb (.outer b)

/-- One block goes back, with its buffer. -/
theorem released_single (hinner : ∀ x, m'.pcb (.inner x) = m.pcb (.inner x))
    (hp : m.pcb (.inner p) = ⟨some .freeInternal, some p⟩)
    (hused : m'.used = m.used.erase p)
    (hbuffers : ∀ b, b ∈ m'.buffers ↔ b ∈ m.buffers ∧ link p ≠ some b)
    (hsame : ∀ x ≠ p, m'.rtcspcb x = m.rtcspcb x) (hdupptr : (m'.rtcspcb p).dupptr = none)
    (hdupcount : (m'.rtcspcb p).dupcount = 0) (horig : (m'.rtcspcb p).pcbOrig = none)
    (houter : ∀ b, link p ≠ some b → m'.pcb (.outer b) = m.pcb (.outer b))
    (hrestored : ∀ b, link p = some b → m'.pcb (.outer b) = ⟨some .linkLayer, none⟩) :
    Released link {p} ∅ m m' where
  sub := Finset.empty_subset _
  used x := by simp [hused, and_comm]
  buffers b := by simp [hbuffers]
  blank x hx _ := by
    obtain rfl := Finset.mem_singleton.1 hx
    exact ⟨by simp [hused], (hinner x).trans hp, hdupptr, hdupcount, horig⟩
  restored x hx _ b hb := by
    obtain rfl := Finset.mem_singleton.1 hx
    exact hrestored b hb
  rtcspcb x hx := hsame x (by simpa using hx)
  inner x _ := hinner x
  outer b hb := houter b (hb p (Finset.mem_singleton_self p))

theorem partFree_of_mem (h : p ∈ m.used) :
    partFree m p = .ok { m with used := m.used.erase p } := if_pos h

theorem linkFree_of_mem (h : b ∈ m.buffers) :
    linkFree m (.outer b) = .ok { m with buffers := m.buffers.erase b } := if_pos h

theorem ok_bind (f : Memory Block Buffer → Except Fault (Memory Block Buffer)) :
    (Except.ok m >>= f) = f m := rfl

/-- The last part of a release, of a block that nothing counts on any more. -/
theorem release_spec (h : Given link m p) (hdupptr : (m.rtcspcb p).dupptr = none)
    (hdupcount : (m.rtcspcb p).dupcount = 0) {ptr : PcbPtr Block Buffer}
    (hptr : ptr = (m.rtcspcb p).pcbptr) :
    ∃ m', (∀ free, (do
        let m ← freeOrig m free p
        let m ← freeReceived m free ptr p
        partFree m p) = .ok m') ∧ Released link {p} ∅ m m' := by
  obtain ⟨hused, hinner, hlinked⟩ := h
  generalize hlink : link p = o at hlinked
  cases hlinked with
  | sent hown hfree horig =>
    refine ⟨{ m with used := m.used.erase p }, fun free => ?_, ?_⟩
    · simp only [freeOrig, horig, ok_bind, freeReceived, hfree, partFree_of_mem hused]
    · refine released_single (fun _ => rfl) hinner rfl ?_ (fun _ _ => rfl) hdupptr hdupcount horig
        (fun _ _ => rfl) ?_ <;> simp [hlink]
  | @received b hb hown hfree hpriv horig hpcb =>
    have hb' : b ∈ (m.setPcb (.outer b) ⟨some .linkLayer, none⟩).buffers := hb
    refine ⟨{ m.setPcb (.outer b) ⟨some .linkLayer, none⟩ with
      buffers := m.buffers.erase b, used := m.used.erase p }, fun free => ?_, ?_⟩
    · simp only [freeOrig, horig, ok_bind, freeReceived, hfree, hptr, hown, hpriv, pcbFree,
        setPcb_pcb, Function.update_self, linkFree_of_mem hb']
      exact partFree_of_mem hused
    · refine released_single ?_ hinner rfl ?_ (fun _ _ => rfl) hdupptr hdupcount horig ?_ ?_
      · simp
      · simp [hlink, and_comm, eq_comm]
      · intro c hc
        simp [Function.update_of_ne, show c ≠ b from fun heq => hc (heq ▸ hlink)]
      · simp [hlink]
  | @forked b hb hown hfree horig hpcb =>
    refine ⟨{ m.set p { m.rtcspcb p with pcbOrig := none } with
      buffers := m.buffers.erase b, used := m.used.erase p }, fun free => ?_, ?_⟩
    · simp only [freeOrig, horig, ok_bind, pcbFree, hpcb, linkFree_of_mem hb, freeReceived,
        set_rtcspcb, Function.update_self, hfree]
      exact partFree_of_mem hused
    · refine released_single (fun _ => rfl) hinner rfl ?_ ?_ ?_ ?_ ?_ (fun _ _ => rfl) ?_
      · simp [hlink, and_comm, eq_comm]
      · intro x hx
        simp [Function.update_of_ne hx]
      · simpa using hdupptr
      · simpa using hdupcount
      · simp
      · simp [hlink, hpcb]

/-! ## The counts -/

open Forest

/-- `DUPPTR` of every block. -/
def Memory.parent (m : Memory Block Buffer) (x : Block) : Option Block := (m.rtcspcb x).dupptr

/-- Every block counts what refers to it: its owner and its duplicates. One reference to `pend` is
being dropped. -/
structure Counted (live held : Finset Block) (pend : Option Block) (link : Block → Option Buffer)
    (rank : Block → ℕ) (m : Memory Block Buffer) : Prop where
  ranked : Ranked m.parent live rank
  given : ∀ x ∈ live, Given link m x
  count : ∀ x ∈ live, (m.rtcspcb x).dupcount + 1 =
    (if x ∈ held then 1 else 0) + (children m.parent live x).card +
      if pend = some x then 1 else 0

/-- No two blocks hold the same buffer. -/
def Apart (link : Block → Option Buffer) (live : Finset Block) : Prop :=
  ∀ x ∈ live, ∀ y ∈ live, ∀ b, link x = some b → link y = some b → x = y

variable {pend : Option Block}

theorem Linked.congr {o : Option Buffer} (h : Linked m x o)
    (hptr : (m'.rtcspcb x).pcbptr = (m.rtcspcb x).pcbptr)
    (hfree : (m'.rtcspcb x).pcbFree = (m.rtcspcb x).pcbFree)
    (hpriv : (m'.rtcspcb x).pcbPrivate = (m.rtcspcb x).pcbPrivate)
    (horig : (m'.rtcspcb x).pcbOrig = (m.rtcspcb x).pcbOrig)
    (hpcb : ∀ b, o = some b → m'.pcb (.outer b) = m.pcb (.outer b))
    (hbuffers : ∀ b, o = some b → b ∈ m.buffers → b ∈ m'.buffers) : Linked m' x o := by
  cases h with
  | sent hown hnone hno =>
    exact .sent (hptr.trans hown) (hfree.trans hnone) (horig.trans hno)
  | received hb hown hlink hdriver hno hinternal =>
    exact .received (hbuffers _ rfl hb) (hptr.trans hown) (hfree.trans hlink)
      (hpriv.trans hdriver) (horig.trans hno) ((hpcb _ rfl).trans hinternal)
  | forked hb hown hnone hforked hdriver =>
    exact .forked (hbuffers _ rfl hb) (hptr.trans hown) (hfree.trans hnone)
      (horig.trans hforked) ((hpcb _ rfl).trans hdriver)

/-- A block outside of a release, with a buffer of its own, stays as it was. -/
theorem Given.frame (h : Given link m x) (hreleased : Released link live live' m m')
    (hx : x ∉ live) (hapart : ∀ y ∈ live, ∀ b, link x = some b → link y ≠ some b) :
    Given link m' x := by
  have hsame := hreleased.rtcspcb x hx
  refine ⟨?_, (hreleased.inner x hx).trans h.inner, ?_⟩
  · exact (hreleased.used x).2 ⟨h.used, fun hc => hx hc.1⟩
  · apply h.linked.congr <;> try rw [hsame]
    · intro b hb
      exact hreleased.outer b fun y hy => hapart y hy b hb
    · intro b hb hmem
      exact (hreleased.buffers b).2 ⟨hmem, fun y hy _ => hapart y hy b hb⟩

theorem Given.setDupptr (h : Given link m x) (o : Option Block) :
    Given link (m.set p { m.rtcspcb p with dupptr := o }) x := by
  refine ⟨h.used, h.inner, ?_⟩
  by_cases hx : x = p
  · subst hx
    apply h.linked.congr <;> simp
  · apply h.linked.congr <;> simp [Function.update_of_ne hx]

theorem Given.setDupcount (h : Given link m x) (n : ℕ) :
    Given link (m.set p { m.rtcspcb p with dupcount := n }) x := by
  refine ⟨h.used, h.inner, ?_⟩
  by_cases hx : x = p
  · subst hx
    apply h.linked.congr <;> simp
  · apply h.linked.congr <;> simp [Function.update_of_ne hx]

theorem Counted.congr (h : Counted live held pend link rank m)
    (hsame : ∀ x ∈ live, m'.rtcspcb x = m.rtcspcb x) (hgiven : ∀ x ∈ live, Given link m' x) :
    Counted live held pend link rank m' := by
  have hparent : ∀ x ∈ live, m'.parent x = m.parent x := fun x hx =>
    congrArg RtcspcbFields.dupptr (hsame x hx)
  refine ⟨?_, hgiven, ?_⟩
  · intro x hx y hy
    exact h.ranked x hx y ((hparent x hx).symm.trans hy)
  · intro x hx
    rw [hsame x hx, children_congr hparent]
    exact h.count x hx

theorem Given.pcb_ptr (h : Given link m q) :
    m.pcb (m.rtcspcb q).pcbptr = ⟨some .freeInternal, some q⟩ := by
  obtain ⟨-, hinner, hlinked⟩ := h
  generalize link q = o at hlinked
  cases hlinked with
  | sent hown => rw [hown, hinner]
  | received _ hown _ _ _ hpcb => rw [hown, hpcb]
  | forked _ hown => rw [hown, hinner]

theorem rtcspcbFree_succ (h : Given link m q) (fuel : ℕ) : rtcspcbFree m (fuel + 1) q =
    if (m.rtcspcb q).dupcount ≠ 0 then
      .ok (m.set q { m.rtcspcb q with dupcount := (m.rtcspcb q).dupcount - 1 })
    else
      (freeDupptr m (freeInternal fuel) q >>= fun m₁ => do
        let m₁ ← freeOrig m₁ (freeInternal fuel) q
        let m₁ ← freeReceived m₁ (freeInternal fuel) (m.rtcspcb q).pcbptr q
        partFree m₁ q) := by
  rw [rtcspcbFree, pcbFree, h.pcb_ptr]
  dsimp only
  rw [freeInternal, h.pcb_ptr]

/-- A reference is dropped while others are left. -/
theorem Counted.drop (h : Counted live held (some q) link rank m)
    (hcount : (m.rtcspcb q).dupcount ≠ 0) :
    Counted live held none link rank
      (m.set q { m.rtcspcb q with dupcount := (m.rtcspcb q).dupcount - 1 }) := by
  have hparent : (m.set q { m.rtcspcb q with dupcount := (m.rtcspcb q).dupcount - 1 }).parent =
      m.parent := by
    funext x
    by_cases hx : x = q
    · subst hx
      simp [Memory.parent]
    · simp [Memory.parent, Function.update_of_ne hx]
  refine ⟨?_, ?_, ?_⟩
  · rw [hparent]
    exact h.ranked
  · exact fun x hx => (h.given x hx).setDupcount _
  · intro x hx
    have hx' := h.count x hx
    rw [hparent]
    by_cases hxq : x = q
    · subst hxq
      simp only [set_rtcspcb, Function.update_self, if_true, reduceCtorEq, if_false] at hx' ⊢
      omega
    · have hne : (some q = some x) = False := by simp [Ne.symm hxq]
      simp only [set_rtcspcb, Function.update_of_ne hxq, hne, if_false, reduceCtorEq] at hx' ⊢
      exact hx'

/-- Nothing refers to a block whose last reference is dropped: its own reference is the next one
to be dropped. -/
theorem Counted.last (h : Counted live held (some q) link rank m) (hq : q ∈ live)
    (hcount : (m.rtcspcb q).dupcount = 0) :
    q ∉ held ∧ Counted (live.erase q) held (m.parent q) link rank m := by
  have hq' := h.count q hq
  rw [hcount, if_pos rfl] at hq'
  have hheld : q ∉ held := by
    intro hc
    rw [if_pos hc] at hq'
    omega
  have hchildren : (children m.parent live q).card = 0 := by omega
  have hnone : ∀ x ∈ live, m.parent x ≠ some q := by
    intro x hx hc
    have hmem := mem_children.2 ⟨hx, hc⟩
    rw [Finset.card_eq_zero.1 hchildren] at hmem
    exact Finset.notMem_empty x hmem
  refine ⟨hheld, ?_, fun x hx => h.given x (Finset.mem_of_mem_erase hx), ?_⟩
  · intro x hx y hy
    have hx' := Finset.mem_of_mem_erase hx
    obtain ⟨hmem, hlt⟩ := h.ranked x hx' y hy
    refine ⟨Finset.mem_erase.2 ⟨?_, hmem⟩, hlt⟩
    rintro rfl
    exact hnone x hx' hy
  · intro x hx
    obtain ⟨hne, hx'⟩ := Finset.mem_erase.1 hx
    have hcount := h.count x hx'
    have hne' : (some q = some x) = False := by simp [Ne.symm hne]
    rw [card_children_erase hq] at hcount
    simp only [hne', if_false, add_zero] at hcount
    rw [hcount, add_assoc]

theorem Released.refl : Released link live live m m where
  sub := Finset.Subset.refl live
  used x := by simp
  buffers b := ⟨fun hb => ⟨hb, fun x hx hx' => absurd hx hx'⟩, And.left⟩
  blank x hx hx' := absurd hx hx'
  restored x hx hx' := absurd hx hx'
  rtcspcb _ _ := rfl
  inner _ _ := rfl
  outer _ _ := rfl

theorem Released.set (hq : q ∈ live) (r : RtcspcbFields Block Buffer) :
    Released link live live m (m.set q r) where
  sub := Finset.Subset.refl live
  used x := by simp
  buffers b := ⟨fun hb => ⟨hb, fun x hx hx' => absurd hx hx'⟩, And.left⟩
  blank x hx hx' := absurd hx hx'
  restored x hx hx' := absurd hx hx'
  rtcspcb x hx := Function.update_of_ne (by rintro rfl; exact hx hq) _ _
  inner _ _ := rfl
  outer _ _ := rfl

/-- The references upwards have been dropped, then the block itself goes. -/
theorem Released.then_self {m₁ : Memory Block Buffer} {r : RtcspcbFields Block Buffer}
    (h₁ : Released link (live.erase q) live' m m₁) (hq : q ∈ live) (hapart : Apart link live)
    (h₂ : Released link {q} ∅ (m₁.set q r) m') : Released link live live' m m' := by
  have hsub : ∀ x ∈ live', x ∈ live ∧ x ≠ q := fun x hx =>
    (Finset.mem_erase.1 (h₁.sub hx)).symm
  have hqlive : q ∉ live' := fun hc => (hsub q hc).2 rfl
  have hiff : ∀ x, x ∈ live ∧ x ∉ live' ↔ (x ∈ live.erase q ∧ x ∉ live') ∨ x = q := by
    intro x
    by_cases hx : x = q
    · simp [hx, hq, hqlive]
    · simp [hx]
  refine ⟨fun x hx => (hsub x hx).1, ?_, ?_, ?_, ?_, ?_, ?_, ?_⟩
  · intro x
    rw [h₂.used, set_used, h₁.used, hiff]
    simp only [Finset.mem_singleton, Finset.notMem_empty, not_false_eq_true, and_true]
    tauto
  · intro b
    rw [h₂.buffers, set_buffers, h₁.buffers]
    constructor
    · rintro ⟨⟨hb, hup⟩, hself⟩
      refine ⟨hb, fun x hx hx' => ?_⟩
      rcases (hiff x).1 ⟨hx, hx'⟩ with hx | rfl
      · exact hup x hx.1 hx.2
      · exact hself x (Finset.mem_singleton_self x) (Finset.notMem_empty x)
    · rintro ⟨hb, hall⟩
      refine ⟨⟨hb, fun x hx hx' => ?_⟩, fun x hx _ => ?_⟩
      · exact hall x (Finset.mem_of_mem_erase hx) hx'
      · rw [Finset.mem_singleton.1 hx]
        exact hall q hq hqlive
  · intro x hx hx'
    rcases (hiff x).1 ⟨hx, hx'⟩ with ⟨hmem, -⟩ | rfl
    · have hne : x ∉ ({q} : Finset Block) := by simpa using Finset.ne_of_mem_erase hmem
      obtain ⟨hused, hinner, hdupptr, hdupcount, horig⟩ := h₁.blank x hmem hx'
      have hsame : m'.rtcspcb x = m₁.rtcspcb x :=
        (h₂.rtcspcb x hne).trans (Function.update_of_ne (Finset.ne_of_mem_erase hmem) _ _)
      refine ⟨fun hc => hused ((h₂.used x).1 hc).1, (h₂.inner x hne).trans hinner, ?_, ?_, ?_⟩
      · rw [hsame, hdupptr]
      · rw [hsame, hdupcount]
      · rw [hsame, horig]
    · exact h₂.blank x (Finset.mem_singleton_self x) (Finset.notMem_empty x)
  · intro x hx hx' b hb
    rcases (hiff x).1 ⟨hx, hx'⟩ with ⟨hmem, -⟩ | rfl
    · refine (h₂.outer b ?_).trans (h₁.restored x hmem hx' b hb)
      intro y hy hyb
      obtain rfl := Finset.mem_singleton.1 hy
      exact Finset.ne_of_mem_erase hmem (hapart x hx y hq b hb hyb)
    · exact h₂.restored x (Finset.mem_singleton_self x) (Finset.notMem_empty x) b hb
  · intro x hx
    have hne : x ≠ q := fun hc => hx (hc ▸ hq)
    refine (h₂.rtcspcb x (by simpa using hne)).trans ?_
    exact (Function.update_of_ne hne _ _).trans
      (h₁.rtcspcb x fun hc => hx (Finset.mem_of_mem_erase hc))
  · intro x hx
    have hne : x ≠ q := fun hc => hx (hc ▸ hq)
    refine (h₂.inner x (by simpa using hne)).trans ?_
    exact h₁.inner x fun hc => hx (Finset.mem_of_mem_erase hc)
  · intro b hb
    refine (h₂.outer b fun y hy => ?_).trans (h₁.outer b fun y hy => ?_)
    · exact Finset.mem_singleton.1 hy ▸ hb q hq
    · exact hb y (Finset.mem_of_mem_erase hy)

/-- Dropping a reference ends, and releases what nothing refers to any more. -/
theorem rtcspcbFree_spec (hapart : Apart link live)
    (h : Counted live held (some q) link rank m) (hq : q ∈ live) :
    ∃ N m' live', (∀ fuel ≥ N, rtcspcbFree m fuel q = .ok m') ∧ Released link live live' m m' ∧
      Counted live' held none link rank m' ∧ (∀ x ∈ live, x ∈ held → x ∈ live') ∧
      ∀ x ∈ live', m'.parent x = m.parent x := by
  induction hn : rank q using Nat.strong_induction_on generalizing q m live with
  | _ n ih =>
    by_cases hcount : (m.rtcspcb q).dupcount = 0
    · obtain ⟨hheld, hlast⟩ := h.last hq hcount
      -- What the reference upwards leaves behind.
      obtain ⟨N, m₁, live', hup, hreleased, hcounted, hkept, hparents⟩ : ∃ N m₁ live',
          (∀ fuel ≥ N, freeDupptr m (freeInternal fuel) q =
            .ok (m₁.set q { m₁.rtcspcb q with dupptr := none })) ∧
          Released link (live.erase q) live' m m₁ ∧ Counted live' held none link rank m₁ ∧
          (∀ x ∈ live.erase q, x ∈ held → x ∈ live') ∧ ∀ x ∈ live', m₁.parent x = m.parent x := by
        cases hparent : m.parent q with
        | none =>
          have hnone : (m.rtcspcb q).dupptr = none := hparent
          have hsame : m.set q { m.rtcspcb q with dupptr := none } = m := by
            rw [← hnone]
            exact congrArg (fun f => { m with rtcspcb := f }) (Function.update_eq_self _ _)
          refine ⟨0, m, live.erase q, fun fuel _ => ?_, .refl, hparent ▸ hlast, fun x hx _ => hx,
            fun _ _ => rfl⟩
          rw [hsame, freeDupptr, hnone]
        | some r =>
          have hdupptr : (m.rtcspcb q).dupptr = some r := hparent
          rw [hparent] at hlast
          obtain ⟨hr, hlt⟩ := h.ranked q hq r hparent
          have hne : r ≠ q := by
            rintro rfl
            exact hlt.ne rfl
          obtain ⟨N, m₁, live', hfree, hrest⟩ := ih (rank r) (hn ▸ hlt)
            (fun x hx y hy => hapart x (Finset.mem_of_mem_erase hx) y (Finset.mem_of_mem_erase hy))
            hlast (Finset.mem_erase.2 ⟨hne, hr⟩) rfl
          refine ⟨N, m₁, live', fun fuel hfuel => ?_, hrest⟩
          have hup := hfree fuel hfuel
          rw [rtcspcbFree] at hup
          rw [freeDupptr, hdupptr]
          dsimp only
          rw [hup]
          rfl
      have hqlive : q ∉ live' := fun hc => Finset.notMem_erase q live (hreleased.sub hc)
      have hfields : m₁.rtcspcb q = m.rtcspcb q :=
        hreleased.rtcspcb q (Finset.notMem_erase q live)
      have hgiven : Given link (m₁.set q { m₁.rtcspcb q with dupptr := none }) q := by
        refine ((h.given q hq).frame hreleased (Finset.notMem_erase q live) ?_).setDupptr none
        intro y hy b hb hyb
        exact Finset.ne_of_mem_erase hy (hapart y (Finset.mem_of_mem_erase hy) q hq b hyb hb)
      obtain ⟨m', hself, hreleased'⟩ := @release_spec _ _ _ _ _ _ _ hgiven (by simp)
        (by simpa [hfields] using hcount) (m.rtcspcb q).pcbptr (by simp [hfields])
      have hne : ∀ x ∈ live', x ≠ q := fun x hx hc => hqlive (hc ▸ hx)
      have hsame : ∀ x ∈ live', m'.rtcspcb x = m₁.rtcspcb x := fun x hx =>
        (hreleased'.rtcspcb x (by simpa using hne x hx)).trans
          (Function.update_of_ne (hne x hx) _ _)
      refine ⟨N + 1, m', live', fun fuel hfuel => ?_, hreleased.then_self hq hapart hreleased',
        hcounted.congr hsame fun x hx => ?_, fun x hx hx' => ?_, fun x hx => ?_⟩
      · obtain ⟨fuel, rfl⟩ := Nat.exists_eq_add_of_le' (Nat.le_of_add_left_le hfuel : 1 ≤ fuel)
        rw [rtcspcbFree_succ (h.given q hq), if_neg (not_not.2 hcount),
          hup fuel (Nat.le_of_add_le_add_right hfuel), ok_bind]
        exact hself (freeInternal fuel)
      · refine ((hcounted.given x hx).setDupptr none).frame hreleased' (by simpa using hne x hx) ?_
        intro y hy b hb hyb
        obtain rfl := Finset.mem_singleton.1 hy
        exact hne x hx (hapart x (Finset.mem_of_mem_erase (hreleased.sub hx)) y hq b hb hyb)
      · refine hkept x (Finset.mem_erase.2 ⟨?_, hx⟩) hx'
        rintro rfl
        exact hheld hx'
      · rw [Memory.parent, hsame x hx]
        exact hparents x hx
    · refine ⟨1, _, live, fun fuel hfuel => ?_, .set hq _, h.drop hcount, fun x hx _ => hx,
        fun x _ => ?_⟩
      · obtain ⟨fuel, rfl⟩ := Nat.exists_eq_succ_of_ne_zero (Nat.one_le_iff_ne_zero.1 hfuel)
        rw [rtcspcbFree_succ (h.given q hq), if_pos hcount]
      · by_cases hx : x = q
        · subst hx
          simp [Memory.parent]
        · simp [Memory.parent, Function.update_of_ne hx]

end Rtcspcb
end Rtcs
end Mqx
