import Mathlib.Logic.Relation
import Mqx.Mem.AllocAlign
import Mqx.Mem.UsableSize

/-!
# The second release of a block

A pointer that has been released is tracked until an allocation hands it out again. The tasks may
write to their blocks meanwhile. `_mem_free` looks for the pointer on the resource list of the
owner and so rejects every pointer that is not in use. `_lwmem_free` trusts the header that is
left in front of the pointer: it may be cleared, or the header of a free block, whose link takes
the place of the owner.
-/

namespace Mqx
namespace Mem

/-- A pool, and the pointers that have been released and not been handed out again. -/
structure History where
  kernel : Kernel
  released : List ℕ

/-- An allocation has returned `ptr`. -/
def History.handOut (t : History) (s' : Kernel) (ptr : ℕ) : History where
  kernel := s'
  released := t.released.filter (· ≠ ptr)

/-- `_mem_free` of `ptr` has returned `code`. -/
def History.release (t : History) (s' : Kernel) (ptr : ℕ) (code : MqxCode) : History where
  kernel := s'
  released := if code = .ok then ptr :: t.released else t.released

/-- Stores that leave the headers of all blocks alone, and the link in the user area of a free
block. -/
def SparesHeaders (s : Kernel) (mp : ℕ) (h : Storeblocks) : Prop :=
  ∀ bs fl rl, PoolInv s mp bs fl rl [] [] → ∀ b ∈ bs, SameHeader s.heap h b ∧
    h.nextblock b = s.heap.nextblock b ∧ h.memPoolPtr b = s.heap.memPoolPtr b ∧
    (s.heap.BlockIsFree b → h.userArea b = s.heap.userArea b)

/-- The calls on a pool, and stores to user areas and to free memory in between. -/
inductive HistoryStep (mp : ℕ) (t : History) : History → Prop
  | alloc {size td ptr : ℕ} {code : MqxCode} {s' : Kernel} (htd : td ≠ 0)
      (hsize : adjustSize size ≠ 0)
      (hcall : memAllocInternal t.kernel size td mp = some ((ptr, code), s')) :
      HistoryStep mp t (t.handOut s' ptr)
  | allocAlign {size reqAlign td ptr : ℕ} {code : MqxCode} {s' : Kernel} (htd : td ≠ 0)
      (halign : reqAlign < 2 ^ 32)
      (hrest : ∀ f, FirstFit t.kernel mp (adjustSize size) (adjustAlign reqAlign) f →
        LeavesRest t.kernel (adjustSize size) (adjustAlign reqAlign) f)
      (hcall : memAllocInternalAlign t.kernel size reqAlign td mp = some ((ptr, code), s')) :
      HistoryStep mp t (t.handOut s' ptr)
  | free {active ptr : ℕ} {code : MqxCode} {s' : Kernel}
      (hcall : memFree t.kernel active ptr = some (code, s')) :
      HistoryStep mp t (t.release s' ptr code)
  | store {h : Storeblocks} (hspares : SparesHeaders t.kernel mp h) :
      HistoryStep mp t { t with kernel := { t.kernel with heap := h } }

/-- The pool is well formed, and no block in use has a released pointer. -/
def History.Tracked (t : History) (mp : ℕ) : Prop :=
  ∃ bs fl rl, PoolInv t.kernel mp bs fl rl [] [] ∧
    ∀ p ∈ t.released, ∀ td, ∀ b ∈ rl td, userAreaPtr b ≠ p

namespace PoolInv

variable {s : Kernel} {mp td : ℕ} {bs fl : List ℕ} {rl : ℕ → List ℕ}

/-- User pointers tell blocks in use apart. -/
theorem userAreaPtr_inj (i : PoolInv s mp bs fl rl [] []) {t b t' b' : ℕ} (hb : b ∈ rl t)
    (hb' : b' ∈ rl t') (h : userAreaPtr b = userAreaPtr b') : b = b' ∧ t = t' := by
  have h1 := i.phys.bounds (i.of_res hb).1
  have h2 := i.phys.bounds (i.of_res hb').1
  have hbb : b = b' := by
    rw [← getMemblockPtr_userAreaPtr (show b + 48 < 2 ^ 32 by omega), h,
      getMemblockPtr_userAreaPtr (show b' + 48 < 2 ^ 32 by omega)]
  subst hbb
  exact ⟨rfl, (i.res_task t b hb).symm.trans (i.res_task t' b hb')⟩

/-- An aligned allocation that leaves the rest of the free block finds nothing or hands out one
block. -/
theorem memAllocInternalAlign_spec (i : PoolInv s mp bs fl rl [] []) {size reqAlign ptr : ℕ}
    {code : MqxCode} {s' : Kernel} (htd : td ≠ 0) (halign : reqAlign < 2 ^ 32)
    (hrest : ∀ f, FirstFit s mp (adjustSize size) (adjustAlign reqAlign) f →
      LeavesRest s (adjustSize size) (adjustAlign reqAlign) f)
    (hcall : memAllocInternalAlign s size reqAlign td mp = some ((ptr, code), s')) :
    (∃ bs', PoolInv s' mp bs' fl rl [] []) ∨
      ∃ b bs' fl', ptr = userAreaPtr b ∧
        PoolInv s' mp bs' fl' (Function.update rl td (b :: rl td)) [] [] := by
  by_cases hacc : reqAlign ≠ 0 ∧ reqAlign &&& (reqAlign - 1) ≠ 0
  · simp only [memAllocInternalAlign, if_pos hacc, Option.some.injEq, Prod.mk.injEq] at hcall
    obtain ⟨-, rfl⟩ := hcall
    exact Or.inl ⟨bs, i⟩
  obtain ⟨h16, hd, hlt⟩ := adjustAlign_spec halign hacc
  rcases i.memAllocInternalAlign_cases size td halign hacc with ⟨s1, he, hinv, -⟩ |
    ⟨pre, f, post, rfl, hpre, hfit, he⟩
  · obtain ⟨-, rfl⟩ := Prod.mk.inj (Option.some.inj (hcall.symm.trans he))
    exact Or.inl ⟨bs, hinv⟩
  · right
    obtain ⟨hr, rfl⟩ := Prod.mk.inj (Option.some.inj (hcall.symm.trans he))
    obtain ⟨rfl, -⟩ := Prod.mk.inj hr
    obtain ⟨hreq, hleft⟩ := hrest f (.intro i hpre hfit)
    obtain ⟨hf, -, hfe⟩ := i.mem_of_free (b := f) (by simp)
    have hfb := i.phys.bounds hf
    obtain ⟨hs96, hs16, -⟩ := alignShift_spec h16 hd hlt hfb.1 (by omega)
    rw [minSize_eq] at hleft
    obtain ⟨h48, hal⟩ := adjustSize_spec hreq
    obtain ⟨l, m, r, rfl⟩ := i.phys.exists_next hf hfe
    have hadd : add32 f (alignShift (adjustAlign reqAlign) f) =
      f + alignShift (adjustAlign reqAlign) f := add32_of_lt (by omega)
    rw [hadd]
    exact ⟨_, _, _, rfl,
      (i.inv_atWindow f).allocBlockAlign htd rfl (by omega) hs16 h48 hal hleft rfl rfl⟩

/-- Stores that spare the headers keep the invariant. -/
theorem store (i : PoolInv s mp bs fl rl [] []) {h : Storeblocks}
    (hspares : SparesHeaders s mp h) : PoolInv { s with heap := h } mp bs fl rl [] [] := by
  have hkeep := hspares bs fl rl i
  have hfree : ∀ b ∈ fl, b ∈ bs ∧ s.heap.BlockIsFree b := fun b hb => (i.mem_free b).mp hb
  refine ⟨i.toLayout.of_agree (fun c hc => (hkeep c hc).1) ?_ ?_ ?_ rfl rfl rfl, ?_⟩
  · refine i.free.congr rfl (fun c hc => (hkeep c (hfree c hc).1).2.1) fun c hc => ?_
    exact (hkeep c (hfree c hc).1).2.2.2 (hfree c hc).2
  · intro t c hc
    exact (hkeep c (i.of_res hc).1).2.1
  · intro c hc
    exact (hkeep c hc).2.2.1
  · exact i.apart.congr fun c hc => (hkeep c hc).1.taskNumber

end PoolInv

namespace History

variable {t t' : History} {mp : ℕ}

/-- Nothing is handed out. -/
theorem Tracked.same {s' : Kernel} {bs fl : List ℕ} {rl : ℕ → List ℕ} (ptr : ℕ)
    (hinv : PoolInv s' mp bs fl rl [] [])
    (hrel : ∀ p ∈ t.released, ∀ td, ∀ b ∈ rl td, userAreaPtr b ≠ p) :
    (t.handOut s' ptr).Tracked mp :=
  ⟨bs, fl, rl, hinv, fun p hp => hrel p (List.mem_of_mem_filter hp)⟩

/-- The block that is handed out is the only new one. -/
theorem Tracked.handOut {s' : Kernel} {td b : ℕ} {bs fl : List ℕ} {rl : ℕ → List ℕ}
    (hinv : PoolInv s' mp bs fl (Function.update rl td (b :: rl td)) [] [])
    (hrel : ∀ p ∈ t.released, ∀ td, ∀ b ∈ rl td, userAreaPtr b ≠ p) :
    (t.handOut s' (userAreaPtr b)).Tracked mp := by
  refine ⟨bs, fl, _, hinv, ?_⟩
  intro p hp td' c hc
  obtain ⟨hp, hne⟩ := List.mem_filter.mp hp
  rcases mem_update_cons.mp hc with ⟨rfl, -⟩ | hc
  · rintro rfl
    simp at hne
  · exact hrel p hp td' c hc

/-- Every step keeps the released pointers out of use. -/
theorem HistoryStep.tracked (h : HistoryStep mp t t') (hi : t.Tracked mp) : t'.Tracked mp := by
  obtain ⟨bs, fl, rl, i, hrel⟩ := hi
  cases h with
  | @alloc size td ptr code s' htd hsize hcall =>
    obtain ⟨r, s1, hrun, hres⟩ := i.memAllocInternal_spec htd hsize
    obtain ⟨rfl, rfl⟩ := Prod.mk.inj (Option.some.inj (hcall.symm.trans hrun))
    rcases hres with ⟨-, hinv⟩ | ⟨f, b, g, rest, bs', rfl, hr, -, hinv⟩
    · exact .same ptr hinv hrel
    · obtain ⟨rfl, -⟩ := Prod.mk.inj hr
      exact .handOut hinv hrel
  | @allocAlign size reqAlign td ptr code s' htd halign hrest hcall =>
    rcases i.memAllocInternalAlign_spec htd halign hrest hcall with
      ⟨bs', hinv⟩ | ⟨b, bs', fl', rfl, hinv⟩
    · exact .same ptr hinv hrel
    · exact .handOut hinv hrel
  | @free active ptr code s' hcall =>
    rcases i.memFree_spec active ptr with ⟨code', hne, he⟩ |
      ⟨b, td, l, r, s1, bs', fl', -, hlr, rfl, -, he, hinv, -⟩
    · obtain ⟨rfl, rfl⟩ := Prod.mk.inj (Option.some.inj (hcall.symm.trans he))
      refine ⟨bs, fl, rl, i, ?_⟩
      simpa only [release, if_neg hne] using hrel
    · obtain ⟨rfl, rfl⟩ := Prod.mk.inj (Option.some.inj (hcall.symm.trans he))
      refine ⟨bs', fl', _, hinv, ?_⟩
      have hsub : ∀ t', ∀ c ∈ Function.update rl td (l ++ r) t', c ∈ rl t' := by
        intro t' c hc
        by_cases ht : t' = td
        · subst ht
          rw [Function.update_self] at hc
          rw [hlr]
          simp only [List.mem_append, List.mem_cons] at hc ⊢
          tauto
        · rwa [Function.update_of_ne ht] at hc
      intro p hp t' c hc
      simp only [release, if_true, List.mem_cons] at hp
      rcases hp with rfl | hp
      · intro heq
        have hbtd : b ∈ rl td := by simp [hlr]
        obtain ⟨rfl, rfl⟩ := i.userAreaPtr_inj (hsub t' c hc) hbtd heq
        rw [Function.update_self] at hc
        have hnd := i.res_nodup t'
        rw [hlr] at hnd
        simp only [List.nodup_append, List.nodup_cons, List.mem_cons, List.mem_append] at hnd hc
        rcases hc with hc | hc
        · exact hnd.2.2 c hc c (Or.inl rfl) rfl
        · exact hnd.2.1.1 hc
      · exact hrel p hp t' c (hsub t' c hc)
  | store hspares => exact ⟨bs, fl, rl, i.store hspares, hrel⟩

theorem Tracked.run (hi : t.Tracked mp) (h : Relation.ReflTransGen (HistoryStep mp) t t') :
    t'.Tracked mp := by
  induction h with
  | refl => exact hi
  | tail _ hstep ih => exact HistoryStep.tracked hstep ih

/-- A released pointer is rejected. -/
theorem Tracked.rejects (hi : t.Tracked mp) {p : ℕ} (hp : p ∈ t.released) (active : ℕ) :
    ∃ code, code ≠ .ok ∧ memFree t.kernel active p = some (code, t.kernel) := by
  obtain ⟨bs, fl, rl, i, hrel⟩ := hi
  rcases i.memFree_spec active p with h | ⟨b, td, l, r, -, -, -, -, hlr, rfl, -⟩
  · exact h
  · exact absurd rfl (hrel _ hp td b (by simp [hlr]))

end History
end Mem

namespace Lwmem

/-- A pool, the blocks that have been handed out, and the blocks that have been released and of
which no part has been handed out again. -/
structure History where
  state : State
  live : List ℕ
  released : List ℕ

/-- An allocation has returned `ptr`. -/
def History.handOut (t : History) (s' : State) (ptr : ℕ) : History :=
  let b := getLwmemblockPtr ptr
  if ptr = 0 then { t with state := s' }
  else
    { state := s'
      live := b :: t.live
      released := t.released.filter fun c => c < b ∨ b + s'.heap.blocksize b ≤ c }

/-- `_lwmem_free` of the block `b` has returned `code`. -/
def History.release (t : History) (s' : State) (b : ℕ) (code : MqxCode) : History :=
  if code = .ok then ⟨s', t.live.filter (· ≠ b), b :: t.released⟩ else { t with state := s' }

/-- Stores to the user areas of blocks in use: the headers that do not overlap one of them stay. -/
def SparesHeaders (s : State) (mp : ℕ) (h : Blocks) : Prop :=
  ∀ bs fl, PoolInv s mp 16 bs fl → ∀ c,
    (∀ b ∈ bs, b ∉ fl → c ≤ b ∨ b + s.heap.blocksize b ≤ c) →
    h.blocksize c = s.heap.blocksize c ∧ h.pool c = s.heap.pool c ∧ h.u c = s.heap.u c

/-- The header of `c` passes the check of the owner although the block is free: the low half of
its link is the number of the caller or of the system task. -/
def Aliased (s : State) (mp active c : ℕ) : Prop :=
  (∃ bs fl, PoolInv s mp 16 bs fl ∧ c ∈ fl) ∧
    (s.heap.taskNumber c = active ∨ s.heap.taskNumber c = systemTaskNumber)

/-- The calls on a pool, and stores to user areas in between. Tasks release their blocks, and
they release blocks again whose headers are not aliased. -/
inductive HistoryStep (mp : ℕ) (t : History) : History → Prop
  | alloc {size td ptr : ℕ} {code : MqxCode} {s' : State} (hsize : adjustSize size ≠ 0)
      (hcall : lwmemAllocInternal t.state size td mp = some ((ptr, code), s')) :
      HistoryStep mp t (t.handOut s' ptr)
  | allocAt {size addr td ptr : ℕ} {code : MqxCode} {s' : State} (hsize : adjustSize size ≠ 0)
      (haddr : 16 ∣ getLwmemblockPtr addr)
      (hwrap : getLwmemblockPtr addr + adjustSize size < 2 ^ 32)
      (hcall : lwmemAllocAtInternal t.state size addr td mp = some ((ptr, code), s')) :
      HistoryStep mp t (t.handOut s' ptr)
  | free {active b : ℕ} {code : MqxCode} {s' : State} (hb : b ∈ t.live)
      (hcall : lwmemFree t.state active (userPtr b) = some (code, s')) :
      HistoryStep mp t (t.release s' b code)
  | freeAgain {active c : ℕ} {code : MqxCode} {s' : State} (hc : c ∈ t.released)
      (hnot : ¬Aliased t.state mp active c)
      (hcall : lwmemFree t.state active (userPtr c) = some (code, s')) :
      HistoryStep mp t (t.release s' c code)
  | store {h : Blocks} (hspares : SparesHeaders t.state mp h) :
      HistoryStep mp t { t with state := { t.state with heap := h } }

/-- What is left of a released block: it is free, or its header has been cleared. No block in
use lies over it. -/
structure Remains (s : State) (bs fl : List ℕ) (c : ℕ) : Prop where
  header : c ∈ fl ∨ s.heap.pool c = 0
  apart : ∀ b ∈ bs, b ∉ fl → c < b ∨ b + s.heap.blocksize b ≤ c
  pos : 0 < c
  limit : c + 16 < 2 ^ 32

/-- The pool is well formed, the blocks that have been handed out are in use, and the released
ones are not. The word at `VALID` of a pool at address 0 is not `LWMEM_POOL_VALID`. -/
def History.Tracked (t : History) (mp : ℕ) : Prop :=
  (t.state.pools 0).valid ≠ lwmemPoolValid ∧ ∃ bs fl, PoolInv t.state mp 16 bs fl ∧
    (∀ b ∈ t.live, b ∈ bs ∧ b ∉ fl) ∧ ∀ c ∈ t.released, Remains t.state bs fl c

namespace PoolInv

variable {s s' : State} {mp td b c q k e active : ℕ} {bs fl bs' fl' : List ℕ}

theorem pool_ne_zero (i : PoolInv s mp 16 bs fl) (h0 : (s.pools 0).valid ≠ lwmemPoolValid)
    (hb : b ∈ bs) : s.heap.pool b ≠ 0 := by
  rw [i.pool b hb]
  rintro rfl
  exact h0 i.valid

/-- Stores that spare the headers keep the invariant. -/
theorem store (i : PoolInv s mp 16 bs fl) {h : Blocks} (hspares : SparesHeaders s mp h) :
    PoolInv { s with heap := h } mp 16 bs fl := by
  have hkeep : ∀ c ∈ bs, h.blocksize c = s.heap.blocksize c ∧ h.pool c = s.heap.pool c ∧
      h.u c = s.heap.u c := by
    intro c hc
    refine hspares bs fl i c fun b hb _ => ?_
    rcases lt_or_ge b c with hlt | hle
    · exact Or.inr (i.tiles.disjoint hb hc hlt)
    · exact Or.inl hle
  refine ⟨i.toLayout.congr rfl rfl rfl rfl (fun c hc => (hkeep c hc).1)
    (fun c hc => (hkeep c hc).2.1) fun c hc => (hkeep c (i.free_mem c hc)).2.2, ?_⟩
  refine i.gaps.imp_of_mem fun {b c} hb _ hlt => ?_
  rw [(hkeep b (i.free_mem b hb)).1]
  exact hlt

/-- The insertion reports no error. -/
theorem freeRun_code {fuel : ℕ} {code : MqxCode} {t : State × Progress MqxCode}
    (ht : ∀ r, t.2 = .returned r → r = .ok) (h : freeRun mp b fuel t = some (code, s')) :
    code = .ok := by
  induction fuel generalizing t with
  | zero => simp [freeRun] at h
  | succ fuel ih =>
    obtain ⟨s1, p⟩ := t
    cases p with
    | returned r =>
      simp only [freeRun, Option.some.injEq, Prod.mk.injEq] at h
      rw [← h.1]
      exact ht r rfl
    | window free prev =>
      refine ih ?_ h
      intro r hr
      simp only [freeResume, freeLoop] at hr
      split_ifs at hr <;> simp_all

/-- Blocks in use keep their places when a block is released. -/
theorem used_of_released (h0 : (s'.pools 0).valid ≠ lwmemPoolValid)
    (hrel : Released s s' mp 16 b bs fl bs' fl') (hc : c ∈ bs') (hfree : c ∉ fl') :
    c ∈ bs ∧ c ∉ fl ∧ c ≠ b ∧ s'.heap.blocksize c = s.heap.blocksize c := by
  have hpool := PoolInv.pool_ne_zero ⟨hrel.layout, hrel.gaps⟩ h0 hc
  have hnot : ¬(c ∈ fl ∨ c = b) := by
    intro h
    rcases hrel.released c h with h | h
    · exact hfree h
    · exact hpool h
  obtain ⟨hfl, hb⟩ := not_or.mp hnot
  have hbs := hrel.blocks c hc
  exact ⟨hbs, hfl, hb, (hrel.used c hbs hfl hb).2.2.1⟩

end PoolInv

namespace Remains

variable {s s' : State} {mp td b c q k e active : ℕ} {bs fl bs' fl' : List ℕ}

/-- The header is rejected unless the block is free and its link is aliased. -/
theorem rejects (hr : Remains s bs fl c) (i : PoolInv s mp 16 bs fl)
    (h0 : (s.pools 0).valid ≠ lwmemPoolValid) (hnot : ¬Aliased s mp active c) :
    ∃ code, code ≠ .ok ∧ lwmemFree s active (userPtr c) = some (code, s) := by
  simp only [lwmemFree, getLwmemblockPtr_userPtr hr.limit, if_neg (userPtr_ne_zero hr.limit)]
  rcases hr.header with hfl | hpool
  · have howner : s.heap.taskNumber c ≠ active ∧ s.heap.taskNumber c ≠ systemTaskNumber :=
      not_or.mp fun h => hnot ⟨⟨bs, fl, i, hfl⟩, h⟩
    refine ⟨.notResourceOwner, by decide, ?_⟩
    rw [i.pool c (i.free_mem c hfl), if_neg (not_not.mpr i.valid), if_pos howner]
  · refine ⟨.lwmemPoolInvalid, by decide, ?_⟩
    rw [hpool, if_pos h0]

/-- What is left after an allocation of other blocks. -/
theorem allocated (hr : Remains s bs fl c) (i : PoolInv s mp 16 bs fl)
    (h0 : (s.pools 0).valid ≠ lwmemPoolValid) (ha : Allocated s s' mp 16 td q k e bs fl bs' fl')
    (hout : c < q ∨ q + k ≤ c) : Remains s' bs' fl' c := by
  have hk : 0 < k := by
    have := ha.layout.pos_size ha.mem
    rwa [ha.size] at this
  have hcq : c ≠ q := by omega
  refine ⟨?_, ?_, hr.pos, hr.limit⟩
  · rcases hr.header with hfl | hpool
    · exact Or.inl ((ha.kept c hfl).resolve_right hcq)
    · by_cases hc : c ∈ bs'
      · rcases ha.blocks c hc with h | h | ⟨h, -⟩
        · exact Or.inl h
        · exact absurd h hcq
        · exact absurd hpool (i.pool_ne_zero h0 h)
      · exact Or.inr ((ha.stale c hc).trans hpool)
  · intro b hb hfree
    rcases ha.blocks b hb with h | rfl | ⟨h, hfl⟩
    · exact absurd h hfree
    · rwa [ha.size]
    · rw [(ha.used b h hfl).2.2.2.1]
      exact hr.apart b h hfl

/-- What is left after the release of a block in use. -/
theorem freed (hr : Remains s bs fl c) (h0 : (s'.pools 0).valid ≠ lwmemPoolValid)
    (hrel : PoolInv.Released s s' mp 16 b bs fl bs' fl') : Remains s' bs' fl' c := by
  refine ⟨?_, ?_, hr.pos, hr.limit⟩
  · rcases hr.header with hfl | hpool
    · exact hrel.released c (Or.inl hfl)
    · rcases hrel.stale c with h | h
      · exact Or.inr (h.trans hpool)
      · exact Or.inr h
  · intro d hd hfree
    obtain ⟨hbs, hfl, -, hsize⟩ := PoolInv.used_of_released h0 hrel hd hfree
    rw [hsize]
    exact hr.apart d hbs hfl

/-- What is left of the block that is released. -/
theorem of_released (i : PoolInv s mp 16 bs fl) (h0 : (s'.pools 0).valid ≠ lwmemPoolValid)
    (hb : b ∈ bs) (hrel : PoolInv.Released s s' mp 16 b bs fl bs' fl') : Remains s' bs' fl' b := by
  have hbb := i.bounds hb
  refine ⟨hrel.released b (Or.inr rfl), ?_, hbb.2.1, by omega⟩
  intro d hd hfree
  obtain ⟨hbs, -, hne, hsize⟩ := PoolInv.used_of_released h0 hrel hd hfree
  rw [hsize]
  rcases Nat.lt_or_gt_of_ne hne with hlt | hlt
  · exact Or.inr (i.tiles.disjoint hbs hb hlt)
  · exact Or.inl hlt

/-- Stores to user areas do not reach it. -/
theorem store (hr : Remains s bs fl c) (i : PoolInv s mp 16 bs fl) {h : Blocks}
    (hspares : SparesHeaders s mp h) : Remains { s with heap := h } bs fl c := by
  have hc := hspares bs fl i c fun b hb hfl => (hr.apart b hb hfl).imp_left Nat.le_of_lt
  refine ⟨hr.header.imp_right fun hpool => hc.2.1.trans hpool, ?_, hr.pos, hr.limit⟩
  intro b hb hfl
  have hsize : h.blocksize b = s.heap.blocksize b := by
    refine (hspares bs fl i b fun d hd _ => ?_).1
    rcases lt_or_ge d b with hlt | hle
    · exact Or.inr (i.tiles.disjoint hd hb hlt)
    · exact Or.inl hle
  simp only [hsize]
  exact hr.apart b hb hfl

end Remains

namespace History

variable {t t' : History} {s' : State} {mp td b q k e ptr : ℕ} {code : MqxCode} {bs fl bs' fl' : List ℕ}

/-- The pool is out of memory. -/
theorem Tracked.outOfMemory (hi : t.Tracked mp) :
    (t.handOut (t.state.resetPointers mp) 0).Tracked mp := by
  obtain ⟨h0, bs, fl, i, hlive, hrel⟩ := hi
  have hframe := t.state.resetPointers_frame mp
  refine ⟨?_, bs, fl, ⟨i.toLayout.congr_frame rfl (hframe mp), i.gaps⟩, hlive, ?_⟩
  · have h := (hframe 0).valid
    simp only [handOut, if_true]
    rwa [h]
  · intro c hc
    have h := hrel c hc
    exact ⟨h.header, h.apart, h.pos, h.limit⟩

/-- A block has been handed out. -/
theorem Tracked.handOut (h0 : (t.state.pools 0).valid ≠ lwmemPoolValid)
    (i : PoolInv t.state mp 16 bs fl) (hlive : ∀ b ∈ t.live, b ∈ bs ∧ b ∉ fl)
    (hrel : ∀ c ∈ t.released, Remains t.state bs fl c)
    (ha : Allocated t.state s' mp 16 td q k e bs fl bs' fl') (hq : getLwmemblockPtr ptr = q)
    (hptr : ptr ≠ 0) : (t.handOut s' ptr).Tracked mp := by
  simp only [History.handOut, hq, if_neg hptr]
  refine ⟨by rwa [ha.valid], bs', fl', ⟨ha.layout, ha.gaps⟩, ?_, ?_⟩
  · intro c hc
    rcases List.mem_cons.mp hc with rfl | hc
    · exact ⟨ha.mem, ha.notMem⟩
    · obtain ⟨h1, h2⟩ := hlive c hc
      exact ⟨(ha.used c h1 h2).1, (ha.used c h1 h2).2.1⟩
  · intro c hc
    obtain ⟨hc, hout⟩ := List.mem_filter.mp hc
    rw [ha.size] at hout
    exact (hrel c hc).allocated i h0 ha (by simpa using hout)

/-- A call of `_lwmem_free` has been rejected. -/
theorem Tracked.rejected (hi : t.Tracked mp) (b : ℕ) (hcode : code ≠ .ok) :
    (t.release t.state b code).Tracked mp := by
  simpa only [release, if_neg hcode] using hi

/-- Every step keeps the released blocks rejected. -/
theorem HistoryStep.tracked (h : HistoryStep mp t t') (hi : t.Tracked mp) : t'.Tracked mp := by
  obtain ⟨h0, bs, fl, i, hlive, hrel⟩ := id hi
  cases h with
  | @alloc size td ptr code s' hsize hcall =>
    rcases i.lwmemAllocInternal_spec td (dvd_refl 16) hsize with
      ⟨he, -⟩ | ⟨s1, b, k, bs', fl', he, -, hb, ha⟩
    · obtain ⟨hr, rfl⟩ := Prod.mk.inj (Option.some.inj (hcall.symm.trans he))
      obtain ⟨rfl, -⟩ := Prod.mk.inj hr
      exact hi.outOfMemory
    · obtain ⟨hr, rfl⟩ := Prod.mk.inj (Option.some.inj (hcall.symm.trans he))
      obtain ⟨rfl, -⟩ := Prod.mk.inj hr
      have hbb := i.bounds (i.free_mem b hb)
      have hlim : b + 16 < 2 ^ 32 := by omega
      exact .handOut h0 i hlive hrel ha (getLwmemblockPtr_userPtr hlim) (userPtr_ne_zero hlim)
  | @allocAt size addr td ptr code s' hsize haddr hwrap hcall =>
    rcases i.lwmemAllocAtInternal_spec td (dvd_refl 16) hsize haddr hwrap with
      ⟨he, -⟩ | ⟨s1, k, bs', fl', b, he, -, -, -, -, ha⟩
    · obtain ⟨hr, rfl⟩ := Prod.mk.inj (Option.some.inj (hcall.symm.trans he))
      obtain ⟨rfl, -⟩ := Prod.mk.inj hr
      exact hi.outOfMemory
    · obtain ⟨hr, rfl⟩ := Prod.mk.inj (Option.some.inj (hcall.symm.trans he))
      obtain ⟨rfl, -⟩ := Prod.mk.inj hr
      refine .handOut h0 i hlive hrel ha rfl ?_
      rintro rfl
      have h16 := (adjustSize_spec hsize).1
      have hnull : getLwmemblockPtr 0 = 4294967284 := rfl
      rw [hnull] at hwrap
      omega
  | @free active b code s' hb hcall =>
    obtain ⟨hbs, hfl⟩ := hlive b hb
    have hbb := i.bounds hbs
    rcases i.lwmemFree_spec hbs hfl active with ⟨he, -⟩ | ⟨s1, bs', fl', he, hfreed⟩
    · obtain ⟨rfl, rfl⟩ := Prod.mk.inj (Option.some.inj (hcall.symm.trans he))
      exact hi.rejected b (by decide)
    · obtain ⟨rfl, rfl⟩ := Prod.mk.inj (Option.some.inj (hcall.symm.trans he))
      have h0' : (s'.pools 0).valid ≠ lwmemPoolValid := by rwa [hfreed.valid]
      simp only [release, if_true]
      refine ⟨h0', bs', fl', ⟨hfreed.layout, hfreed.gaps⟩, ?_, ?_⟩
      · intro c hc
        obtain ⟨hc, hne⟩ := List.mem_filter.mp hc
        obtain ⟨h1, h2⟩ := hlive c hc
        obtain ⟨h3, h4, -⟩ := hfreed.used c h1 h2 (by simpa using hne)
        exact ⟨h3, h4⟩
      · intro c hc
        rcases List.mem_cons.mp hc with rfl | hc
        · exact .of_released i h0' hbs hfreed
        · exact (hrel c hc).freed h0' hfreed
  | @freeAgain active c code s' hc hnot hcall =>
    obtain ⟨code', hne, he⟩ := (hrel c hc).rejects i h0 hnot
    obtain ⟨rfl, rfl⟩ := Prod.mk.inj (Option.some.inj (hcall.symm.trans he))
    exact hi.rejected c hne
  | @store h hspares =>
    exact ⟨h0, bs, fl, i.store hspares, hlive, fun c hc => (hrel c hc).store i hspares⟩

theorem Tracked.run (hi : t.Tracked mp) (h : Relation.ReflTransGen (HistoryStep mp) t t') :
    t'.Tracked mp := by
  induction h with
  | refl => exact hi
  | tail _ hstep ih => exact HistoryStep.tracked hstep ih

/-- A released block is rejected exactly when its header is not aliased. -/
theorem Tracked.rejects_iff (hi : t.Tracked mp) {c : ℕ} (hc : c ∈ t.released) (active : ℕ) :
    (∃ code, code ≠ .ok ∧ lwmemFree t.state active (userPtr c) = some (code, t.state)) ↔
      ¬Aliased t.state mp active c := by
  obtain ⟨h0, bs, fl, i, -, hrel⟩ := hi
  refine ⟨?_, (hrel c hc).rejects i h0⟩
  rintro ⟨code, hne, he⟩ ⟨⟨bs', fl', i', hfl⟩, howner⟩
  have hlim := (hrel c hc).limit
  have hpass : ¬(t.state.heap.taskNumber c ≠ active ∧
      t.state.heap.taskNumber c ≠ systemTaskNumber) := by
    rintro ⟨h1, h2⟩
    exact howner.elim h1 h2
  simp only [lwmemFree, getLwmemblockPtr_userPtr hlim, if_neg (userPtr_ne_zero hlim)] at he
  rw [i'.pool c (i'.free_mem c hfl), if_neg (not_not.mpr i'.valid), if_neg hpass] at he
  refine hne (PoolInv.freeRun_code ?_ he)
  intro r hr
  simp only [freeLoop] at hr
  split_ifs at hr <;> simp_all

end History

/-- Before anything is released: a well formed pool with some blocks in use. -/
def History.Fresh (t : History) (mp : ℕ) : Prop :=
  (t.state.pools 0).valid ≠ lwmemPoolValid ∧ t.released = [] ∧
    ∃ bs fl, PoolInv t.state mp 16 bs fl ∧ ∀ b ∈ t.live, b ∈ bs ∧ b ∉ fl

theorem History.Fresh.tracked {t : History} {mp : ℕ} (h : t.Fresh mp) : t.Tracked mp := by
  obtain ⟨h0, hnil, bs, fl, i, hlive⟩ := h
  exact ⟨h0, bs, fl, i, hlive, by simp [hnil]⟩

/-- A pool of 512 bytes that reaches over a multiple of 2^16. -/
def highPool : State := lwmemCreatePool blankState 1 0xff00 0x200

theorem highPool_inv : PoolInv highPool 1 16 [0xff00] [0xff00] :=
  PoolInv.lwmemCreatePool blankState 1 (by decide) (by decide) (by decide) (by decide)

end Lwmem

/-- In every run on a well formed pool a pointer that has been released and not been handed out
again is rejected by `_mem_free`, and rejected by `_lwmem_free` exactly when its header is not
aliased, and nothing changes. -/
theorem double_free_rejected (mp : ℕ) :
    (∀ t t' : Mem.History, Mem.WellFormed t.kernel mp → t.released = [] →
      Relation.ReflTransGen (Mem.HistoryStep mp) t t' → ∀ p ∈ t'.released, ∀ active,
      ∃ code, code ≠ .ok ∧ Mem.memFree t'.kernel active p = some (code, t'.kernel)) ∧
    ∀ t t' : Lwmem.History, t.Fresh mp →
      Relation.ReflTransGen (Lwmem.HistoryStep mp) t t' → ∀ c ∈ t'.released, ∀ active,
      ((∃ code, code ≠ .ok ∧
          Lwmem.lwmemFree t'.state active (Lwmem.userPtr c) = some (code, t'.state)) ↔
        ¬Lwmem.Aliased t'.state mp active c) := by
  constructor
  · rintro t t' ⟨bs, fl, rl, i⟩ hnil hrun p hp active
    have hi : t.Tracked mp := ⟨bs, fl, rl, i, by simp [hnil]⟩
    exact (hi.run hrun).rejects hp active
  · intro t t' hfresh hrun c hc active
    exact (hfresh.tracked.run hrun).rejects_iff hc active

theorem double_free_rejected_smallPool :
    (∃ t', Relation.ReflTransGen (Mem.HistoryStep 1) ⟨Mem.smallPool, []⟩ t' ∧
      ∃ code, code ≠ .ok ∧ Mem.memFree t'.kernel 1 0x1020 = some (code, t'.kernel)) ∧
    ∃ t', Relation.ReflTransGen (Lwmem.HistoryStep 1) ⟨Lwmem.smallPool, [], []⟩ t' ∧
      ((∃ code, code ≠ .ok ∧ Lwmem.lwmemFree t'.state 1 0x100c = some (code, t'.state)) ↔
        ¬Lwmem.Aliased t'.state 1 1 0x1000) := by
  constructor
  · have h : (Mem.memAllocInternal Mem.smallPool 16 1 1).bind (fun r =>
        (Mem.memFree r.2 1 0x1020).map fun q => (r.1, q.1)) = some ((0x1020, .ok), .ok) := by
      decide +kernel
    obtain ⟨⟨a, s1⟩, h1, h⟩ := Option.bind_eq_some_iff.mp h
    obtain ⟨⟨code, s2⟩, h2, he⟩ := Option.map_eq_some_iff.mp h
    obtain ⟨rfl, rfl⟩ := Prod.mk.inj he
    obtain ⟨t1, ht1⟩ : ∃ t1, t1 = Mem.History.handOut ⟨Mem.smallPool, []⟩ s1 0x1020 := ⟨_, rfl⟩
    have hstep1 : Mem.HistoryStep 1 ⟨Mem.smallPool, []⟩ t1 := by
      rw [ht1]
      exact .alloc (by decide) (by decide) h1
    have hstep2 : Mem.HistoryStep 1 t1 (t1.release s2 0x1020 .ok) := by
      have hcall : Mem.memFree t1.kernel 1 0x1020 = some (.ok, s2) := by
        rw [ht1]
        exact h2
      exact .free hcall
    have hrun := (Relation.ReflTransGen.single hstep1).tail hstep2
    exact ⟨_, hrun, (double_free_rejected 1).1 _ _ Mem.smallPool_wellFormed rfl hrun 0x1020
      (by simp [Mem.History.release]) 1⟩
  · have h : (Lwmem.lwmemAllocInternal Lwmem.smallPool 16 1 1).bind (fun r =>
        (Lwmem.lwmemFree r.2 1 0x100c).map fun q => (r.1, r.2.heap.blocksize 0x1000, q.1)) =
          some ((0x100c, .ok), 32, .ok) := by
      decide +kernel
    obtain ⟨⟨a, s1⟩, h1, h⟩ := Option.bind_eq_some_iff.mp h
    obtain ⟨⟨code, s2⟩, h2, he⟩ := Option.map_eq_some_iff.mp h
    obtain ⟨rfl, he⟩ := Prod.mk.inj he
    obtain ⟨hsize, rfl⟩ := Prod.mk.inj he
    obtain ⟨t1, ht1⟩ : ∃ t1, t1 = Lwmem.History.handOut ⟨Lwmem.smallPool, [], []⟩ s1 0x100c :=
      ⟨_, rfl⟩
    have hstep1 : Lwmem.HistoryStep 1 ⟨Lwmem.smallPool, [], []⟩ t1 := by
      rw [ht1]
      exact .alloc (by decide) h1
    have hlive : t1.live = [0x1000] ∧ t1.state = s1 := by
      rw [ht1]
      exact ⟨rfl, rfl⟩
    have hstep2 : Lwmem.HistoryStep 1 t1 (t1.release s2 0x1000 .ok) := by
      have hcall : Lwmem.lwmemFree t1.state 1 (Lwmem.userPtr 0x1000) = some (.ok, s2) := by
        rw [hlive.2]
        exact h2
      exact .free (by simp [hlive.1]) hcall
    have hrun := (Relation.ReflTransGen.single hstep1).tail hstep2
    have hfresh : Lwmem.History.Fresh ⟨Lwmem.smallPool, [], []⟩ 1 :=
      ⟨by decide, rfl, _, _, Lwmem.smallPool_inv, by simp⟩
    exact ⟨_, hrun, (double_free_rejected 1).2 _ _ hfresh hrun 0x1000
      (by simp [Lwmem.History.release]) 1⟩

/-- Task 16 owns a block of 256 bytes at `0xff00`, which is followed by a small block in use and
a free block at `0x10010`. After the first release the low half of the link to that free block
is 16, so the second release succeeds and makes the block its own successor. -/
theorem double_free_accepted : ∃ t', Lwmem.History.Fresh ⟨Lwmem.highPool, [], []⟩ 1 ∧
    Relation.ReflTransGen (Lwmem.HistoryStep 1) ⟨Lwmem.highPool, [], []⟩ t' ∧
    0xff00 ∈ t'.released ∧ ∃ s', Lwmem.lwmemFree t'.state 16 0xff0c = some (.ok, s') ∧
      s'.heap.u 0xff00 = 0xff00 := by
  have h : (Lwmem.lwmemAllocInternal Lwmem.highPool 244 16 1).bind (fun r =>
      (Lwmem.lwmemAllocInternal r.2 4 16 1).bind fun q =>
        (Lwmem.lwmemFree q.2 16 0xff0c).bind fun f =>
          (Lwmem.lwmemFree f.2 16 0xff0c).map fun g =>
            (r.1, q.1, f.1, g.1, g.2.heap.u 0xff00)) =
      some ((0xff0c, .ok), (0x1000c, .ok), .ok, .ok, 0xff00) := by
    decide +kernel
  obtain ⟨⟨a, s1⟩, h1, h⟩ := Option.bind_eq_some_iff.mp h
  obtain ⟨⟨b, s2⟩, h2, h⟩ := Option.bind_eq_some_iff.mp h
  obtain ⟨⟨c, s3⟩, h3, h⟩ := Option.bind_eq_some_iff.mp h
  obtain ⟨⟨d, s4⟩, h4, h⟩ := Option.map_eq_some_iff.mp h
  simp only [Prod.mk.injEq] at h
  obtain ⟨rfl, rfl, rfl, rfl, hlink⟩ := h
  obtain ⟨t1, ht1⟩ : ∃ t1, t1 = Lwmem.History.handOut ⟨Lwmem.highPool, [], []⟩ s1 0xff0c := ⟨_, rfl⟩
  have hlive1 : t1.live = [0xff00] ∧ t1.state = s1 := by
    rw [ht1]
    exact ⟨rfl, rfl⟩
  have hstep1 : Lwmem.HistoryStep 1 ⟨Lwmem.highPool, [], []⟩ t1 := by
    rw [ht1]
    exact .alloc (by decide) h1
  obtain ⟨t2, ht2⟩ : ∃ t2, t2 = t1.handOut s2 0x1000c := ⟨_, rfl⟩
  have hlive2 : t2.live = 0x10000 :: t1.live ∧ t2.state = s2 := by
    rw [ht2]
    exact ⟨rfl, rfl⟩
  have hstep2 : Lwmem.HistoryStep 1 t1 t2 := by
    have hcall : Lwmem.lwmemAllocInternal t1.state 4 16 1 = some ((0x1000c, .ok), s2) := by
      rw [hlive1.2]
      exact h2
    rw [ht2]
    exact .alloc (by decide) hcall
  have hstep3 : Lwmem.HistoryStep 1 t2 (t2.release s3 0xff00 .ok) := by
    have hcall : Lwmem.lwmemFree t2.state 16 (Lwmem.userPtr 0xff00) = some (.ok, s3) := by
      rw [hlive2.2]
      exact h3
    exact .free (by simp [hlive2.1, hlive1.1]) hcall
  have hrun := ((Relation.ReflTransGen.single hstep1).tail hstep2).tail hstep3
  have hfresh : Lwmem.History.Fresh ⟨Lwmem.highPool, [], []⟩ 1 :=
    ⟨by decide, rfl, _, _, Lwmem.highPool_inv, by simp⟩
  refine ⟨_, hfresh, hrun, by simp [Lwmem.History.release], s4, ?_, hlink⟩
  simp only [Lwmem.History.release, if_true]
  exact h4

end Mqx
