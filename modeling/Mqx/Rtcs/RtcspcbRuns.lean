import Mqx.Rtcs.Rtcspcb

/-!
# Runs over packet control blocks

The owners of packets see who holds which one and what each was derived from. As long as what is
duplicated is no duplicate itself, the blocks in memory are the ones that are needed.
-/

set_option linter.unusedSectionVars false

namespace Mqx
namespace Rtcs
namespace Rtcspcb

open Forest
open Function (update)

variable {Block Buffer : Type*} [DecidableEq Block] [DecidableEq Buffer]
  {m m' : Memory Block Buffer} {live live' held : Finset Block}
  {link : Block → Option Buffer} {rank : Block → ℕ} {p q x : Block} {b : Buffer}

/-- The packets as their owners see them: who still holds one, what each was derived from, and the
buffer that it came in. -/
structure Packets (Block Buffer : Type*) where
  held : Finset Block
  parent : Block → Option Block
  link : Block → Option Buffer

/-- A packet is needed as long as it, or something derived from it, is held. -/
def Packets.Needed (f : Packets Block Buffer) (p : Block) : Prop :=
  ∃ d ∈ f.held, Reaches f.parent d p

/-- A call on a packet. The partition chooses the block, and the driver the buffer. -/
inductive Act (Block Buffer : Type*)
  | allocSend (p : Block)
  | allocRecv (p : Block) (b : Buffer)
  | allocDup (p q : Block)
  | depend (p q : Block)
  | fork (p : Block) (frag : ℕ)
  | free (p : Block)

/-- The call. What `RTCSPCB_depend` and `RTCSPCB_fork` return is not looked at. -/
def step (fuel : ℕ) (m : Memory Block Buffer) : Act Block Buffer →
    Except Fault (Memory Block Buffer)
  | .allocSend p => allocSend m p
  | .allocRecv p b => allocRecv m p b
  | .allocDup p q => allocDup m p q
  | .depend p q => .ok ((depend m p q).getD m)
  | .fork p frag => .ok ((fork m p frag).getD m)
  | .free p => rtcspcbFree m fuel p

/-- What the call means to the owners. -/
def Packets.next (f : Packets Block Buffer) : Act Block Buffer → Packets Block Buffer
  | .allocSend p => ⟨insert p f.held, update f.parent p none, update f.link p none⟩
  | .allocRecv p b => ⟨insert p f.held, update f.parent p none, update f.link p (some b)⟩
  | .allocDup p q => ⟨insert p f.held, update f.parent p (some q), update f.link p none⟩
  | .depend p q => if f.parent p = none then { f with parent := update f.parent p (some q) } else f
  | .fork _ _ => f
  | .free p => { f with held := f.held.erase p }

/-- The partition gives out free blocks and the driver new buffers, owners use what they hold, and
nothing depends on itself. Moreover a packet that is duplicated is no duplicate itself, and one
that is forked is no duplicate or has no buffer. -/
def Meets (f : Packets Block Buffer) : Act Block Buffer → Prop
  | .allocSend p => ¬f.Needed p
  | .allocRecv p b => ¬f.Needed p ∧ ∀ x, f.Needed x → f.link x ≠ some b
  | .allocDup p q => ¬f.Needed p ∧ q ∈ f.held ∧ f.parent q = none
  | .depend p q => p ∈ f.held ∧ q ∈ f.held ∧ ¬Reaches f.parent q p
  | .fork p _ => p ∈ f.held ∧ (f.parent p = none ∨ f.link p = none)
  | .free p => p ∈ f.held

/-- The memory holds what is needed. -/
structure Whole (f : Packets Block Buffer) (m : Memory Block Buffer) : Prop where
  counted : ∃ rank, Counted m.used f.held none f.link rank m
  parent : ∀ x ∈ m.used, m.parent x = f.parent x
  held : f.held ⊆ m.used
  blank : ∀ x ∉ m.used, Blank m x
  driver : ∀ b ∉ m.buffers, m.pcb (.outer b) = ⟨some .linkLayer, none⟩
  buffers : ∀ b ∈ m.buffers, ∃ x ∈ m.used, f.link x = some b
  apart : Apart f.link m.used

variable {f : Packets Block Buffer}

theorem Whole.needed_iff (h : Whole f m) : f.Needed p ↔ p ∈ m.used := by
  obtain ⟨rank, hcounted⟩ := h.counted
  have hranked : Ranked f.parent m.used rank := fun x hx y hy =>
    hcounted.ranked x hx y ((h.parent x hx).trans hy)
  constructor
  · rintro ⟨d, hd, hreach⟩
    exact hranked.mem_of_reaches (h.held hd) hreach
  · intro hp
    have hsome : ∀ x ∈ m.used, x ∈ f.held ∨ ∃ y ∈ m.used, f.parent y = some x := by
      intro x hx
      by_cases hheld : x ∈ f.held
      · exact .inl hheld
      · have hcount := hcounted.count x hx
        rw [if_neg hheld, if_neg (by simp)] at hcount
        obtain ⟨y, hy⟩ := Finset.card_pos.1
          (show 0 < (children m.parent m.used x).card by omega)
        obtain ⟨hmem, hparent⟩ := mem_children.1 hy
        exact .inr ⟨y, hmem, (h.parent y hmem).symm.trans hparent⟩
    obtain ⟨d, -, hd, hreach⟩ := hranked.exists_reaches hsome hp
    exact ⟨d, hd, hreach⟩

theorem Linked.mem (h : Linked m x (some b)) : b ∈ m.buffers := by
  cases h with
  | received hb | forked hb => exact hb

/-- One reference of the owner is dropped. -/
theorem Whole.free (h : Whole f m) (hp : p ∈ f.held) :
    ∃ N m', (∀ fuel ≥ N, rtcspcbFree m fuel p = .ok m') ∧ Whole (f.next (.free p)) m' := by
  obtain ⟨rank, hranked, hgiven, hcount⟩ := h.counted
  have hpend : Counted m.used (f.held.erase p) (some p) f.link rank m := by
    refine ⟨hranked, hgiven, fun x hx => ?_⟩
    have hx' := hcount x hx
    by_cases hxp : x = p
    · subst hxp
      simp only [hp, if_true, reduceCtorEq, if_false, Finset.notMem_erase] at hx' ⊢
      omega
    · have hne : (some p = some x) = False := by simp [Ne.symm hxp]
      simpa only [Finset.mem_erase, hxp, ne_eq, not_false_eq_true, true_and, hne, reduceCtorEq,
        if_false] using hx'
  obtain ⟨N, m', live', hfree, hreleased, hcounted, hkept, hparents⟩ :=
    rtcspcbFree_spec h.apart hpend (h.held hp)
  have hused : m'.used = live' := by
    ext x
    rw [hreleased.used]
    exact ⟨fun hx => by_contra fun hx' => hx.2 ⟨hx.1, hx'⟩,
      fun hx => ⟨hreleased.sub hx, fun hc => hc.2 hx⟩⟩
  refine ⟨N, m', hfree, ⟨rank, hused ▸ hcounted⟩, ?_, ?_, ?_, ?_, ?_, ?_⟩
  · intro x hx
    rw [hused] at hx
    exact (hparents x hx).trans (h.parent x (hreleased.sub hx))
  · intro x hx
    rw [hused]
    exact hkept x (h.held (Finset.mem_of_mem_erase hx)) hx
  · intro x hx
    rw [hused] at hx
    by_cases hmem : x ∈ m.used
    · exact hreleased.blank x hmem hx
    · obtain ⟨hnot, hinner, hdupptr, hdupcount, horig⟩ := h.blank x hmem
      have hsame := hreleased.rtcspcb x hmem
      exact ⟨hused ▸ hx, (hreleased.inner x hmem).trans hinner, hsame ▸ hdupptr,
        hsame ▸ hdupcount, hsame ▸ horig⟩
  · intro b hb
    by_cases hmem : ∃ x ∈ m.used, f.link x = some b
    · obtain ⟨x, hx, hlink⟩ := hmem
      refine hreleased.restored x hx (fun hc => hb ?_) b hlink
      exact (hlink ▸ (hcounted.given x hc).linked).mem
    · have hall : ∀ x ∈ m.used, f.link x ≠ some b := fun x hx hc => hmem ⟨x, hx, hc⟩
      exact (hreleased.outer b hall).trans (h.driver b fun hc => hmem (h.buffers b hc))
  · intro b hb
    obtain ⟨hb', hnone⟩ := (hreleased.buffers b).1 hb
    obtain ⟨x, hx, hlink⟩ := h.buffers b hb'
    exact ⟨x, hused ▸ by_contra fun hc => hnone x hx hc hlink, hlink⟩
  · intro x hx y hy
    rw [hused] at hx hy
    exact h.apart x (hreleased.sub hx) y (hreleased.sub hy)

/-- A block that the partition gives out, with a buffer that is new or with none. -/
theorem Whole.alloc (h : Whole f m) (hp : p ∉ m.used) {o : Option Buffer}
    (hnew : ∀ b, o = some b → b ∉ m.buffers) (hused : m'.used = insert p m.used)
    (hbuffers : ∀ b, b ∈ m'.buffers ↔ b ∈ m.buffers ∨ o = some b)
    (hsame : ∀ x ≠ p, m'.rtcspcb x = m.rtcspcb x)
    (hinner : ∀ x, m'.pcb (.inner x) = m.pcb (.inner x))
    (houter : ∀ b, o ≠ some b → m'.pcb (.outer b) = m.pcb (.outer b))
    (hdupptr : (m'.rtcspcb p).dupptr = none) (hdupcount : (m'.rtcspcb p).dupcount = 0)
    (hlinked : Linked m' p o) :
    Whole ⟨insert p f.held, update f.parent p none, update f.link p o⟩ m' := by
  obtain ⟨rank, hranked, hgiven, hcount⟩ := h.counted
  have hne : ∀ x ∈ m.used, x ≠ p := fun x hx hc => hp (hc ▸ hx)
  have hparent : ∀ x ∈ m.used, m'.parent x = m.parent x := fun x hx =>
    congrArg RtcspcbFields.dupptr (hsame x (hne x hx))
  have hnone : m'.parent p = none := hdupptr
  have hchildren : ∀ x, (children m'.parent (insert p m.used) x).card =
      (children m.parent m.used x).card := by
    intro x
    rw [card_children_insert hp, hnone, children_congr hparent, if_neg (by simp), add_zero]
  have hold : ∀ x ∈ m.used, ∀ b, f.link x = some b → b ∈ m.buffers ∧ o ≠ some b := by
    intro x hx b hb
    have hmem := (hb ▸ (hgiven x hx).linked).mem
    exact ⟨hmem, fun hc => hnew b hc hmem⟩
  refine ⟨⟨rank, ?_, ?_, ?_⟩, ?_, ?_, ?_, ?_, ?_, ?_⟩
  · intro x hx y hy
    rcases Finset.mem_insert.1 (hused ▸ hx) with rfl | hx
    · rw [hnone] at hy
      cases hy
    · obtain ⟨hmem, hlt⟩ := hranked x hx y ((hparent x hx).symm.trans hy)
      exact ⟨hused ▸ Finset.mem_insert_of_mem hmem, hlt⟩
  · intro x hx
    rcases Finset.mem_insert.1 (hused ▸ hx) with rfl | hmem
    · refine ⟨hx, (hinner x).trans (h.blank x hp).inner, ?_⟩
      dsimp only
      rw [Function.update_self]
      exact hlinked
    · refine ⟨hx, (hinner x).trans (hgiven x hmem).inner, ?_⟩
      have hfields := hsame x (hne x hmem)
      dsimp only
      rw [Function.update_of_ne (hne x hmem)]
      apply (hgiven x hmem).linked.congr <;> try rw [hfields]
      · intro b hb
        exact houter b (hold x hmem b hb).2
      · intro b _ hb
        exact (hbuffers b).2 (.inl hb)
  · intro x hx
    rw [hused, hchildren]
    rcases Finset.mem_insert.1 (hused ▸ hx) with rfl | hmem
    · have hno : (children m.parent m.used x).card = 0 := by
        refine Finset.card_eq_zero.2 (Finset.eq_empty_of_forall_notMem fun y hy => hp ?_)
        obtain ⟨hy, hyx⟩ := mem_children.1 hy
        exact (hranked y hy x hyx).1
      rw [hdupcount, hno, if_pos (Finset.mem_insert_self x f.held), if_neg (by simp)]
    · have hiff : x ∈ insert p f.held ↔ x ∈ f.held := by simp [hne x hmem]
      rw [hsame x (hne x hmem), if_congr hiff rfl rfl]
      exact hcount x hmem
  · intro x hx
    dsimp only
    rcases Finset.mem_insert.1 (hused ▸ hx) with rfl | hmem
    · rw [hnone, Function.update_self]
    · rw [hparent x hmem, Function.update_of_ne (hne x hmem)]
      exact h.parent x hmem
  · rw [hused]
    exact Finset.insert_subset_insert p h.held
  · intro x hx
    rw [hused, Finset.mem_insert, not_or] at hx
    obtain ⟨-, hpcb, hno, hzero, horig⟩ := h.blank x hx.2
    have hfields := hsame x hx.1
    exact ⟨by simp [hused, hx], (hinner x).trans hpcb, hfields ▸ hno, hfields ▸ hzero,
      hfields ▸ horig⟩
  · intro b hb
    rw [hbuffers, not_or] at hb
    exact (houter b hb.2).trans (h.driver b hb.1)
  · intro b hb
    rw [hused]
    rcases (hbuffers b).1 hb with hb | hb
    · obtain ⟨x, hx, hlink⟩ := h.buffers b hb
      exact ⟨x, Finset.mem_insert_of_mem hx, (Function.update_of_ne (hne x hx) _ _).trans hlink⟩
    · exact ⟨p, Finset.mem_insert_self p _, (Function.update_self ..).trans hb⟩
  · intro x hx y hy b hxb hyb
    dsimp only at hxb hyb
    rcases Finset.mem_insert.1 (hused ▸ hx) with rfl | hx <;>
      rcases Finset.mem_insert.1 (hused ▸ hy) with rfl | hy
    · rfl
    · rw [Function.update_self] at hxb
      rw [Function.update_of_ne (hne y hy)] at hyb
      exact absurd hxb (hold y hy b hyb).2
    · rw [Function.update_self] at hyb
      rw [Function.update_of_ne (hne x hx)] at hxb
      exact absurd hyb (hold x hx b hxb).2
    · rw [Function.update_of_ne (hne x hx)] at hxb
      rw [Function.update_of_ne (hne y hy)] at hyb
      exact h.apart x hx y hy b hxb hyb

/-- What a dependency changes. -/
theorem depend_spec (hdupptr : (m.rtcspcb p).dupptr = none) (hne : q ≠ p) :
    ∃ m', depend m p q = some m' ∧ m'.parent = update m.parent p (some q) ∧
      (∀ x, (m'.rtcspcb x).dupcount = (m.rtcspcb x).dupcount + if q = x then 1 else 0) ∧
      m'.used = m.used ∧ m'.buffers = m.buffers ∧ m'.pcb = m.pcb ∧
      (∀ x, x ≠ p → x ≠ q → m'.rtcspcb x = m.rtcspcb x) ∧
      ∀ x, Given link m x → Given link m' x := by
  refine ⟨_, if_neg (not_not.2 hdupptr), ?_, ?_, rfl, rfl, rfl, ?_, ?_⟩
  · funext x
    by_cases hxq : x = q
    · subst hxq
      simp [Memory.parent, Function.update_of_ne hne]
    · by_cases hxp : x = p
      · subst hxp
        simp [Memory.parent, Function.update_of_ne hxq]
      · simp [Memory.parent, Function.update_of_ne hxq, Function.update_of_ne hxp]
  · intro x
    by_cases hxq : x = q
    · subst hxq
      simp [Function.update_of_ne hne]
    · by_cases hxp : x = p
      · subst hxp
        simp [Function.update_of_ne hxq, hne]
      · simp [Function.update_of_ne hxq, Function.update_of_ne hxp, Ne.symm hxq]
  · intro x hxp hxq
    simp [Function.update_of_ne hxq, Function.update_of_ne hxp]
  · intro x hx
    exact (hx.setDupptr (some q)).setDupcount _

/-- A packet that is made to depend on another one. -/
theorem Whole.depend (h : Whole f m) (hp : p ∈ f.held) (hq : q ∈ f.held)
    (hreach : ¬Reaches f.parent q p) :
    Whole (f.next (.depend p q)) ((depend m p q).getD m) := by
  have hparent : m.parent p = f.parent p := h.parent p (h.held hp)
  by_cases hnone : f.parent p = none
  · have hdupptr : (m.rtcspcb p).dupptr = none := hparent.trans hnone
    have hne : q ≠ p := by
      rintro rfl
      exact hreach .refl
    obtain ⟨rank, hranked, hgiven, hcount⟩ := h.counted
    have hreach' : ¬Reaches m.parent q p := fun hc => hreach <| hc.congr fun y hy =>
      (h.parent y (hranked.mem_of_reaches (h.held hq) hy)).symm
    obtain ⟨rank', hranked'⟩ := hranked.attach (h.held hq) hreach'
    obtain ⟨m', hm', hparent', hdupcount, hused, hbuffers, hpcb, hsame, hgiven'⟩ :=
      @depend_spec _ _ _ _ _ f.link _ _ hdupptr hne
    rw [hm', Option.getD_some, Packets.next, if_pos hnone]
    refine ⟨⟨rank', ?_, ?_, ?_⟩, ?_, ?_, ?_, ?_, ?_, ?_⟩
    · rw [hparent', hused]
      exact hranked'
    · intro x hx
      exact hgiven' x (hgiven x (hused ▸ hx))
    · intro x hx
      have hx' := hcount x (hused ▸ hx)
      rw [hdupcount, hparent', hused, card_children_attach (h.held hp) (hparent.trans hnone)]
      rw [add_right_comm, hx', add_right_comm (_ + _), add_assoc (ite _ _ _)]
    · intro x hx
      dsimp only
      rw [hparent']
      by_cases hxp : x = p
      · rw [hxp, Function.update_self, Function.update_self]
      · rw [Function.update_of_ne hxp, Function.update_of_ne hxp]
        exact h.parent x (hused ▸ hx)
    · rw [hused]
      exact h.held
    · intro x hx
      rw [hused] at hx
      have hfields : m'.rtcspcb x = m.rtcspcb x := by
        refine hsame x ?_ ?_
        · rintro rfl
          exact hx (h.held hp)
        · rintro rfl
          exact hx (h.held hq)
      obtain ⟨-, hinner, hno, hzero, horig⟩ := h.blank x hx
      exact ⟨hused ▸ hx, hpcb ▸ hinner, hfields ▸ hno, hfields ▸ hzero, hfields ▸ horig⟩
    · rw [hbuffers, hpcb]
      exact h.driver
    · rw [hbuffers, hused]
      exact h.buffers
    · rw [hused]
      exact h.apart
  · have hdupptr : (m.rtcspcb p).dupptr ≠ none := fun hc => hnone (hparent.symm.trans hc)
    rw [Rtcspcb.depend, if_pos hdupptr, Packets.next, if_neg hnone]
    exact h

/-- A change to one block that leaves its references alone. -/
theorem Whole.modify (h : Whole f m) (hp : p ∈ m.used)
    (hsame : ∀ x ≠ p, m'.rtcspcb x = m.rtcspcb x)
    (hdupptr : (m'.rtcspcb p).dupptr = (m.rtcspcb p).dupptr)
    (hdupcount : (m'.rtcspcb p).dupcount = (m.rtcspcb p).dupcount)
    (hused : m'.used = m.used) (hbuffers : m'.buffers = m.buffers)
    (hinner : ∀ x, m'.pcb (.inner x) = m.pcb (.inner x))
    (houter : ∀ b, f.link p ≠ some b → m'.pcb (.outer b) = m.pcb (.outer b))
    (hlinked : Linked m' p (f.link p)) : Whole f m' := by
  obtain ⟨rank, hranked, hgiven, hcount⟩ := h.counted
  have hparent : m'.parent = m.parent := by
    funext x
    by_cases hx : x = p
    · exact hx ▸ hdupptr
    · exact congrArg RtcspcbFields.dupptr (hsame x hx)
  have hcounts : ∀ x, (m'.rtcspcb x).dupcount = (m.rtcspcb x).dupcount := by
    intro x
    by_cases hx : x = p
    · exact hx ▸ hdupcount
    · exact congrArg RtcspcbFields.dupcount (hsame x hx)
  refine ⟨⟨rank, ?_, ?_, ?_⟩, ?_, hused ▸ h.held, ?_, ?_, ?_, hused ▸ h.apart⟩
  · rw [hparent, hused]
    exact hranked
  · intro x hx
    rw [hused] at hx
    refine ⟨hused ▸ hx, (hinner x).trans (hgiven x hx).inner, ?_⟩
    by_cases hxp : x = p
    · exact hxp ▸ hlinked
    · have hfields := hsame x hxp
      apply (hgiven x hx).linked.congr <;> try rw [hfields]
      · intro b hb
        exact houter b fun hc => hxp (h.apart x hx p hp b hb hc)
      · intro b _ hb
        exact hbuffers ▸ hb
  · rw [hparent, hused]
    intro x hx
    rw [hcounts]
    exact hcount x hx
  · rw [hparent, hused]
    exact h.parent
  · intro x hx
    rw [hused] at hx
    have hfields := hsame x fun hc => hx (hc ▸ hp)
    obtain ⟨-, hpcb, hno, hzero, horig⟩ := h.blank x hx
    exact ⟨hused ▸ hx, (hinner x).trans hpcb, hfields ▸ hno, hfields ▸ hzero, hfields ▸ horig⟩
  · intro b hb
    rw [hbuffers] at hb
    refine (houter b fun hc => hb ?_).trans (h.driver b hb)
    exact (hc ▸ (hgiven p hp).linked).mem
  · rw [hbuffers, hused]
    exact h.buffers

theorem Whole.fork (h : Whole f m) (hp : p ∈ f.held) (hnone : f.parent p = none ∨ f.link p = none)
    (frag : ℕ) : Whole f ((fork m p frag).getD m) := by
  obtain ⟨rank, hcounted⟩ := h.counted
  obtain ⟨-, hinner, hlinked⟩ := hcounted.given p (h.held hp)
  generalize hlink : f.link p = o at hlinked
  by_cases hfrags : (m.rtcspcb p).numFrags = 0
  · cases hlinked with
    | sent hptr | forked _ hptr =>
      rw [Rtcspcb.fork, if_neg (not_not.2 hfrags), if_pos hptr]
      exact h
    | @received b hb hptr hfree hpriv horig hpcb =>
      have hdupptr : (m.rtcspcb p).dupptr = none :=
        (h.parent p (h.held hp)).trans (hnone.resolve_right (by simp [hlink]))
      rw [Rtcspcb.fork, if_neg (not_not.2 hfrags), if_neg (by simp [hptr]), Option.getD_some,
        if_pos hdupptr, hptr, hfree, hpriv]
      apply h.modify (h.held hp)
      · intro x hx
        simp [Function.update_of_ne hx]
      · simp [hdupptr]
      · simp
      · rfl
      · rfl
      · simp
      · intro c hc
        have hcb : c ≠ b := by
          rintro rfl
          exact hc hlink
        simp [Function.update_of_ne, hcb]
      · rw [hlink]
        apply Linked.forked <;> simp [hb]
  · rw [Rtcspcb.fork, if_pos hfrags]
    exact h

theorem partAlloc_of_notMem (h : p ∉ m.used) :
    partAlloc m p = .ok { m with used := insert p m.used } := if_neg h

theorem Whole.allocSend (h : Whole f m) (hp : p ∉ m.used) :
    ∃ m', allocSend m p = .ok m' ∧ Whole (f.next (.allocSend p)) m' := by
  obtain ⟨-, -, hdupptr, hdupcount, horig⟩ := h.blank p hp
  rw [Rtcspcb.allocSend, partAlloc_of_notMem hp, ok_bind]
  refine ⟨_, rfl, @Whole.alloc _ _ _ _ _ _ _ _ h hp none ?_ ?_ ?_ ?_ ?_ ?_ ?_ ?_ ?_⟩
  · simp
  · rfl
  · simp
  · intro x hx
    simp [Function.update_of_ne hx]
  · simp
  · simp
  · simpa using hdupptr
  · simpa using hdupcount
  · apply Linked.sent <;> simp [horig]

theorem Whole.allocRecv (h : Whole f m) (hp : p ∉ m.used) (hb : b ∉ m.buffers) :
    ∃ m', allocRecv m p b = .ok m' ∧ Whole (f.next (.allocRecv p b)) m' := by
  obtain ⟨-, -, hdupptr, hdupcount, horig⟩ := h.blank p hp
  have hdriver := h.driver b hb
  have hp' : p ∉ ({ m with buffers := insert b m.buffers } : Memory Block Buffer).used := hp
  rw [Rtcspcb.allocRecv, partAlloc_of_notMem hp', ok_bind]
  refine ⟨_, rfl, @Whole.alloc _ _ _ _ _ _ _ _ h hp (some b) ?_ ?_ ?_ ?_ ?_ ?_ ?_ ?_ ?_⟩
  · rintro c ⟨⟩
    exact hb
  · rfl
  · intro c
    simp [or_comm, eq_comm]
  · intro x hx
    simp [Function.update_of_ne hx]
  · simp
  · intro c hc
    have hcb : c ≠ b := fun heq => hc (heq ▸ rfl)
    simp [Function.update_of_ne, hcb]
  · simpa using hdupptr
  · simpa using hdupcount
  · apply Linked.received <;> simp [horig, hdriver]

theorem Whole.allocDup (h : Whole f m) (hp : p ∉ m.used) (hq : q ∈ f.held)
    (hnone : f.parent q = none) :
    ∃ m', allocDup m p q = .ok m' ∧ Whole (f.next (.allocDup p q)) m' := by
  obtain ⟨-, hinner, -, -, -⟩ := h.blank p hp
  obtain ⟨rank, hcounted⟩ := h.counted
  have hqused := h.held hq
  have hqinner := (hcounted.given q hqused).inner
  have hqnone : (m.rtcspcb q).dupptr = none := (h.parent q hqused).trans hnone
  rw [Rtcspcb.allocDup, partAlloc_of_notMem hp, ok_bind]
  refine ⟨_, rfl, ?_⟩
  have hnext : f.next (.allocDup p q) =
      (f.next (.allocSend p)).next (.depend p q) := by
    simp [Packets.next]
  rw [hnext]
  apply Whole.depend
  · refine @Whole.alloc _ _ _ _ _ _ _ _ h hp none ?_ ?_ ?_ ?_ ?_ ?_ ?_ ?_ ?_
    · simp
    · rfl
    · simp
    · intro x hx
      simp [Function.update_of_ne hx]
    · intro x
      by_cases hx : x = p
      · subst hx
        simp [hinner, hqinner]
      · simp [Function.update_of_ne, hx]
    · simp
    · simpa using hqnone
    · simp
    · apply Linked.sent <;> simp
  · exact Finset.mem_insert_self p f.held
  · exact Finset.mem_insert_of_mem hq
  · -- The parents of what is in use are in use.
    intro hreach
    refine hp (@Ranked.mem_of_reaches _ _ _ rank _ _ ?_ hqused hreach)
    intro x hx y hy
    have hxp : x ≠ p := by
      rintro rfl
      exact hp hx
    have hy : f.parent x = some y := (Function.update_of_ne hxp _ _).symm.trans hy
    exact hcounted.ranked x hx y ((h.parent x hx).trans hy)

/-- One call. -/
theorem Whole.step (h : Whole f m) {act : Act Block Buffer} (hmeets : Meets f act) :
    ∃ N m', (∀ fuel ≥ N, step fuel m act = .ok m') ∧ Whole (f.next act) m' := by
  cases act with
  | allocSend p =>
    obtain ⟨m', hm', hwhole⟩ := h.allocSend (mt h.needed_iff.2 hmeets)
    exact ⟨0, m', fun _ _ => hm', hwhole⟩
  | allocRecv p b =>
    have hb : b ∉ m.buffers := by
      intro hc
      obtain ⟨x, hx, hlink⟩ := h.buffers b hc
      exact hmeets.2 x (h.needed_iff.2 hx) hlink
    obtain ⟨m', hm', hwhole⟩ := h.allocRecv (mt h.needed_iff.2 hmeets.1) hb
    exact ⟨0, m', fun _ _ => hm', hwhole⟩
  | allocDup p q =>
    obtain ⟨m', hm', hwhole⟩ := h.allocDup (mt h.needed_iff.2 hmeets.1) hmeets.2.1 hmeets.2.2
    exact ⟨0, m', fun _ _ => hm', hwhole⟩
  | depend p q => exact ⟨0, _, fun _ _ => rfl, h.depend hmeets.1 hmeets.2.1 hmeets.2.2⟩
  | fork p frag => exact ⟨0, _, fun _ _ => rfl, h.fork hmeets.1 hmeets.2 frag⟩
  | free p => exact h.free hmeets

/-- The partition after `RTCSPCB_init`: `RTCSPCB_construct` leaves the other fields as they are. -/
def start (r : Block → RtcspcbFields Block Buffer) : Memory Block Buffer where
  rtcspcb p := { r p with pcbOrig := none, dupptr := none, dupcount := 0 }
  pcb
    | .inner p => ⟨some .freeInternal, some p⟩
    | .outer _ => ⟨some .linkLayer, none⟩
  used := ∅
  buffers := ∅

def Packets.empty : Packets Block Buffer := ⟨∅, fun _ => none, fun _ => none⟩

theorem whole_start (r : Block → RtcspcbFields Block Buffer) : Whole .empty (start r) where
  counted := ⟨fun _ => 0, fun _ hx => absurd hx (Finset.notMem_empty _),
    fun _ hx => absurd hx (Finset.notMem_empty _), fun _ hx => absurd hx (Finset.notMem_empty _)⟩
  parent _ hx := absurd hx (Finset.notMem_empty _)
  held := Finset.empty_subset _
  blank x _ := ⟨Finset.notMem_empty x, rfl, rfl, rfl, rfl⟩
  driver _ _ := rfl
  buffers _ hb := absurd hb (Finset.notMem_empty _)
  apart _ hx := absurd hx (Finset.notMem_empty _)

/-- Calls one after the other. -/
def run (fuel : ℕ) (m : Memory Block Buffer) (acts : List (Act Block Buffer)) :
    Except Fault (Memory Block Buffer) :=
  acts.foldlM (step fuel) m

def Packets.after (f : Packets Block Buffer) (acts : List (Act Block Buffer)) :
    Packets Block Buffer :=
  acts.foldl Packets.next f

def MeetsAll (f : Packets Block Buffer) : List (Act Block Buffer) → Prop
  | [] => True
  | act :: acts => Meets f act ∧ MeetsAll (f.next act) acts

theorem Whole.run (h : Whole f m) {acts : List (Act Block Buffer)} (hmeets : MeetsAll f acts) :
    ∃ N m', (∀ fuel ≥ N, run fuel m acts = .ok m') ∧ Whole (f.after acts) m' := by
  induction acts generalizing f m with
  | nil => exact ⟨0, m, fun _ _ => rfl, h⟩
  | cons act acts ih =>
    obtain ⟨N₁, m₁, hstep, h₁⟩ := h.step hmeets.1
    obtain ⟨N₂, m₂, hrest, h₂⟩ := ih h₁ hmeets.2
    refine ⟨max N₁ N₂, m₂, fun fuel hfuel => ?_, h₂⟩
    rw [Rtcspcb.run, List.foldlM_cons, hstep fuel (le_of_max_le_left hfuel), ok_bind]
    exact hrest fuel (le_of_max_le_right hfuel)

/-- All calls end without a fault, and at any time exactly the blocks and the buffers of packets
that are needed are given out. So a block goes back once, when the last packet that was derived
from it is freed. -/
theorem run_released (r : Block → RtcspcbFields Block Buffer) (acts : List (Act Block Buffer))
    (hmeets : MeetsAll .empty acts) :
    ∃ N m, (∀ fuel ≥ N, run fuel (start r) acts = .ok m) ∧
      (∀ p, p ∈ m.used ↔ (Packets.empty.after acts).Needed p) ∧
      ∀ b, b ∈ m.buffers ↔ ∃ p, (Packets.empty.after acts).Needed p ∧
        (Packets.empty.after acts).link p = some b := by
  obtain ⟨N, m, hrun, h⟩ := (whole_start r).run hmeets
  refine ⟨N, m, hrun, fun p => h.needed_iff.symm, fun b => ?_⟩
  constructor
  · intro hb
    obtain ⟨p, hp, hlink⟩ := h.buffers b hb
    exact ⟨p, h.needed_iff.2 hp, hlink⟩
  · rintro ⟨p, hp, hlink⟩
    obtain ⟨rank, hcounted⟩ := h.counted
    exact (hlink ▸ (hcounted.given p (h.needed_iff.1 hp)).linked).mem

theorem run_released_two :
    let acts : List (Act Bool Unit) := [.allocRecv false (), .allocDup true false, .free false]
    ∃ N m, (∀ fuel ≥ N, run fuel (start fun p => ⟨.inner p, none, none, none, none, 0, 0⟩) acts =
        .ok m) ∧
      (∀ p, p ∈ m.used ↔ (Packets.empty.after acts).Needed p) ∧
      ∀ b, b ∈ m.buffers ↔ ∃ p, (Packets.empty.after acts).Needed p ∧
        (Packets.empty.after acts).link p = some b := by
  refine run_released _ _ ⟨⟨?_, ?_⟩, ⟨?_, ?_, rfl⟩, ?_, trivial⟩
  · rintro ⟨d, hd, -⟩
    exact Finset.notMem_empty d hd
  · rintro x ⟨d, hd, -⟩
    exact absurd hd (Finset.notMem_empty d)
  · rintro ⟨d, hd, hreach⟩
    obtain rfl : d = false := by simpa [Packets.next, Packets.empty] using hd
    rcases hreach.cases_head with heq | ⟨c, hc, -⟩
    · cases heq
    · cases hc
  · exact Finset.mem_insert_self false ∅
  · exact Finset.mem_insert_of_mem (Finset.mem_insert_self false ∅)

/-- A packet, a duplicate of it, and a duplicate of that one. The two duplicates are freed: the
packet goes back, with its buffer, while its owner still holds it. -/
theorem duplicate_of_duplicate_released_early :
    let acts : List (Act (Fin 3) Unit) :=
      [.allocRecv 0 (), .allocDup 1 0, .allocDup 2 1, .free 2, .free 1]
    0 ∈ (Packets.empty.after acts).held ∧
      ∃ m, run 3 (start fun p => ⟨.inner p, none, none, none, none, 0, 0⟩) acts = .ok m ∧
        0 ∉ m.used ∧ () ∉ m.buffers :=
  ⟨by decide, _, rfl, by decide, by decide⟩

end Rtcspcb
end Rtcs
end Mqx
