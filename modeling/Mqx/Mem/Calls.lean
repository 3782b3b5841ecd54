import Mqx.Mem.Sequential

/-!
# Sequences of calls on one pool

A pool built by `_mem_create_pool_internal` stays well formed under every sequence of
allocations, releases, partial releases and transfers, and the free list stays in
address order as long as no release hits the one case in which the insertion goes to
the wrong side of the only free block.
-/

namespace Mqx.Mem

open PointerList

namespace PoolInv

variable {s : Kernel} {mp : ℕ} {bs fl : List ℕ} {rl : ℕ → List ℕ}

theorem kdPoolBlockInError (i : PoolInv s mp bs fl rl [] []) (b : ℕ) :
    PoolInv (s.kdPoolBlockInError b) mp bs fl rl [] [] := by
  by_cases hmp : mp = s.kdPool
  · apply i.congr <;> simp [Kernel.kdPoolBlockInError, Kernel.setPool, hmp]
  · apply i.congr <;> simp [Kernel.kdPoolBlockInError, Kernel.setPool, hmp]

/-- Cutting the rest off a block in use keeps the free blocks apart. -/
theorem splitUsed {td b m size : ℕ} (rest : ℕ) {l r : List ℕ}
    (i : PoolInv s mp (l ++ b :: m :: r) fl rl [] []) (hb : b ∈ rl td) (hsize : 48 ≤ size)
    (hal : size % 16 = 0) (hrest : 48 ≤ rest) (hsum : size + rest = s.heap.blocksize b) :
    PoolInv (s.splitUsed td b size rest) mp (l ++ b :: (b + size) :: m :: r) fl
      (Function.update rl td ((b + size) :: rl td)) [] [] := by
  have hlay := i.toLayout.splitUsed rest hb hsize hal hrest hsum rfl
  refine ⟨hlay, ?_⟩
  have hnew : b + size ∉ l ++ b :: m :: r :=
    i.phys.tiles.notMem_of_interior (b := b) (by simp) (by omega) (by omega)
  have hother : ∀ c ∈ l ++ b :: m :: r,
      (s.splitUsed td b size rest).heap.taskNumber c = s.heap.taskNumber c := by
    intro c hc
    have hbb := i.phys.bounds (b := b) (by simp)
    have hbm := i.phys.next_eq
    rw [splitUsed_heap s td (n := b + size) (m := m) (add32_of_lt (by omega))
      (by rw [add32_of_lt] <;> omega) (by omega) (by omega) (by omega)]
    exact Function.update_of_ne (by rintro rfl; exact hnew hc) _ _
  have hr : Apart s.heap ([b] ++ m :: r) := i.apart.right
  have hused : ∀ c ∈ [b, b + size], ¬(s.splitUsed td b size rest).heap.BlockIsFree c := by
    intro c hc
    refine (hlay.of_res (t := td) ?_).2.2
    simp only [List.mem_cons, List.not_mem_nil, or_false] at hc
    rcases hc with rfl | rfl
    · simp [hb]
    · simp
  refine Apart.append_cons_of_used (hused b (by simp)) ?_
    (Apart.append_cons_of_used (l := []) (hused (b + size) (by simp)) List.isChain_nil ?_)
  · exact i.apart.left.congr fun c hc => hother c (by simp [hc])
  · exact hr.right.congr fun c hc => hother c (by simp at hc ⊢; tauto)

/-- The rest that has been cut off is released. -/
theorem memFree_splitUsed (i : PoolInv s mp bs fl rl [] []) (active : ℕ) {td b size : ℕ}
    (hb : b ∈ rl td) (h48 : 48 ≤ size) (hal : size % 16 = 0)
    (hcut : 2 * mqxMinMemoryStorageSize ≤ s.heap.blocksize b - size) :
    ∃ code s' bs' fl' rl', memFree (s.splitUsed td b size (s.heap.blocksize b - size)) active
        (userAreaPtr (add32 b size)) = some (code, s') ∧ PoolInv s' mp bs' fl' rl' [] [] := by
  obtain ⟨hbs, hbe, -⟩ := i.of_res hb
  obtain ⟨l, m, r, rfl⟩ := i.phys.exists_next hbs hbe
  rw [minSize_eq] at hcut
  have hsplit := i.splitUsed (s.heap.blocksize b - size) hb h48 hal (by omega) (by omega)
  rcases hsplit.memFree_spec active (userAreaPtr (add32 b size)) with
    ⟨code, -, he⟩ | ⟨_, _, _, _, s', bs', fl', -, -, -, -, he, hinv, -⟩
  · exact ⟨code, _, _, _, _, he, hsplit⟩
  · exact ⟨_, s', bs', fl', _, he, hinv⟩

/-- `_mem_free_part` keeps the invariant, whatever it returns. -/
theorem memFreePart_spec (i : PoolInv s mp bs fl rl [] []) (active memPtr : ℕ) {size : ℕ}
    (hsize : adjustSize size ≠ 0) :
    ∃ code s' bs' fl' rl', memFreePart s active memPtr size = some (code, s') ∧
      PoolInv s' mp bs' fl' rl' [] [] := by
  obtain ⟨h48, hal⟩ := adjustSize_spec hsize
  have hsame : ∀ code : MqxCode, ∃ code' s' bs' fl' rl', some (code, s) = some (code', s') ∧
      PoolInv s' mp bs' fl' rl' [] [] := fun code => ⟨code, s, bs, fl, rl, rfl, i⟩
  unfold memFreePart
  dsimp only
  by_cases h1 : memPtr = 0
  · simpa only [h1, if_true] using hsame _
  by_cases h2 : MemoryAligned (getMemblockPtr memPtr)
  swap
  · simpa only [h1, h2, if_false, not_false_eq_true, if_true] using hsame _
  by_cases h3 : s.heap.blocksize (getMemblockPtr memPtr) < mqxMinMemoryStorageSize ∨
      s.heap.BlockIsFree (getMemblockPtr memPtr)
  · rw [if_neg h1, if_neg (not_not.mpr h2), if_pos h3]
    exact ⟨_, _, bs, fl, rl, rfl, i.kdPoolBlockInError _⟩
  by_cases h4 : s.heap.ValidChecksum (getMemblockPtr memPtr)
  swap
  · rw [if_neg h1, if_neg (not_not.mpr h2), if_neg h3, if_pos h4]
    exact ⟨_, _, bs, fl, rl, rfl, i.kdPoolBlockInError _⟩
  rw [if_neg h1, if_neg (not_not.mpr h2), if_neg h3, if_neg (not_not.mpr h4)]
  rcases i.resourceWalk_cases memPtr (resourceOwner s active (getMemblockPtr memPtr)) with
    ⟨b, l, r, hlr, hmem, hget, hwalk⟩ | ⟨-, p, hwalk⟩
  · rw [hwalk]
    simp only [h1, if_false]
    rw [hget] at hlr ⊢
    split_ifs with hle hcut
    · exact i.memFree_splitUsed active (by simp [hlr]) h48 hal hcut
    · exact hsame _
    · exact hsame _
  · rw [hwalk]
    simpa only [if_true] using hsame _

/-- `_mem_transfer_td_internal` moves the block from one list to the other, or changes
nothing. -/
theorem memTransferTdInternal_spec (i : PoolInv s mp bs fl rl [] []) {memPtr target : ℕ} (source : ℕ)
    (hmem : memPtr ≠ 0) (htarget : target ≠ 0) :
    ∃ code s' rl', memTransferTdInternal s memPtr source target = some (code, s') ∧
      PoolInv s' mp bs fl rl' [] [] := by
  unfold memTransferTdInternal
  dsimp only
  rcases i.resourceWalk_cases memPtr source with
    ⟨b, l, r, hlr, hptr, hget, hwalk⟩ | ⟨hnone, p, hwalk⟩
  · have hmove : PoolInv (memTransferInternal
        (s.setResourceLink source l.getLast? (s.heap.nextblock b)) memPtr target) mp bs fl
        (Function.update (Function.update rl source (l ++ r)) target
          (b :: Function.update rl source (l ++ r) target)) [] [] := by
      have hb := i.of_res (t := source) (b := b) (by simp [hlr])
      have hlay := (i.toLayout.setResourceLink hlr).memTransferInternal htarget
      rw [hptr]
      refine ⟨hlay, i.apart.mono ?_⟩
      intro c hc hfree
      have hc' := (hlay.mem_free c).mpr ⟨hc, hfree⟩
      exact ((i.mem_free c).mp hc').2
    have hhead : memPtr = s.memoryResourceList source → l.getLast? = none := by
      intro he
      have hres := i.res source
      have hbound := i.res_bounds source
      have hd := i.res_nodup source
      rw [hlr] at hres hbound hd
      cases l with
      | nil => rfl
      | cons a l =>
        have ha : s.memoryResourceList source = userAreaPtr a := hres.1
        have hab := userAreaPtr_inj (hbound b (by simp)) (hbound a (by simp))
          (hptr.symm.trans (he.trans ha))
        simp [hab] at hd
    rw [hwalk]
    simp only [hmem, if_false, hget]
    split_ifs with he
    · rw [hhead he] at hmove
      exact ⟨_, _, _, rfl, hmove⟩
    · exact ⟨_, _, _, rfl, hmove⟩
  · have hhead : memPtr ≠ s.memoryResourceList source := by
      intro he
      have hres := i.res source
      cases hl : rl source with
      | nil =>
        rw [hl] at hres
        exact hmem (he.trans hres)
      | cons a l =>
        rw [hl] at hres
        exact hnone a (by simp [hl]) (he.trans hres.1).symm
    rw [if_neg hhead, hwalk]
    exact ⟨.notResourceOwner, s, rl, by simp only [if_true], i⟩

/-- The first block of a pool is the start of its memory, rounded up. -/
theorem poolPtr_spec {start : ℕ} (hstart : start ≠ 0) (hfits : start + 271 < 2 ^ 32) :
    ∃ b, memoryAlignValLarger start = b ∧ b % 16 = 0 ∧ 0 < b ∧ b + 256 < 2 ^ 32 := by
  refine ⟨_, rfl, ?_⟩
  have hdef : memoryAlignValLarger start =
      (start + 15) % 4294967296 - (start + 15) % 4294967296 % 16 := rfl
  have hlt : start + 15 < 4294967296 := by omega
  rw [hdef, Nat.mod_eq_of_lt hlt]
  omega

/-- A new pool is one free block followed by the end sentinel. -/
theorem memCreatePoolInternal_spec {s s' : Kernel} {start end_ mp : ℕ} (hstart : start ≠ 0)
    (hfits : start + 271 < 2 ^ 32) (hend : end_ < 2 ^ 32)
    (hlists : ∀ t, s.memoryResourceList t = 0)
    (h : memCreatePoolInternal s start end_ mp = (.ok, s')) :
    ∃ b e, PoolInv s' mp [b, e] [b] (fun _ => []) [] [] := by
  obtain ⟨b, hb, hal, hpos, hb256⟩ := poolPtr_spec hstart hfits
  obtain ⟨k, hk, hkal, hklt⟩ : ∃ k, alignAddrToLowerMem end_ = k ∧ k % 16 = 0 ∧ k < 2 ^ 32 := by
    refine ⟨_, rfl, ?_⟩
    unfold alignAddrToLowerMem pspCacheLineSize
    omega
  have hadd : add32 b mqxMinMemoryPoolSize = b + 256 := add32_of_lt hb256
  unfold memCreatePoolInternal at h
  simp only [hb, hk, hadd] at h
  split_ifs at h with h1 h2
  · simp at h
  · simp at h
  · simp only [Prod.mk.injEq, true_and] at h
    have hsub : sub32 k b = k - b := sub32_of_le (by omega) hklt
    have hsub' : sub32 (k - b) mqxMinMemoryStorageSize = k - b - 48 :=
      sub32_of_le (by rw [minSize_eq]; omega) (by omega)
    have he : add32 b (k - b - 48) = k - 48 := by rw [add32_of_lt] <;> omega
    obtain ⟨e, rfl⟩ : ∃ e, k = e + 48 := ⟨k - 48, by omega⟩
    have hbe : b ≠ e := by omega
    have hsys : systemTaskNumber ≠ 0 := by decide
    simp only [hsub, hsub', Storeblocks.nextPhys, Storeblocks.calcChecksum, Function.update_self,
      Storeblocks.headerSum, he, Nat.add_sub_cancel] at h
    refine ⟨b, e, ?_⟩
    subst h
    refine ⟨⟨⟨?_, ?_, ⟨[b], ?_⟩, ?_, ?_, ?_, ?_, ?_⟩, ?_, ?_, ?_, ?_, ?_, ?_, ?_, ?_, ?_, ?_, ?_⟩,
      ?_⟩
    · simp [Kernel.setPool, Tiles, hbe, minSize_eq]
      omega
    · simp [hbe]
    · simp [Kernel.setPool]
    · intro c hc
      rcases List.mem_pair.mp hc with rfl | rfl
      · simp [hbe, minSize_eq]
        omega
      · simp
    · intro c hc
      rcases List.mem_pair.mp hc with rfl | rfl
      · simp [hbe, MemoryAligned, pspCacheLineSize]
        omega
      · simp [MemoryAligned, pspCacheLineSize, minSize_eq]
        omega
    · intro c hc _
      rcases List.mem_pair.mp hc with rfl | rfl
      · simp [hbe, Storeblocks.ValidChecksum, Storeblocks.headerSum]
      · simp [Storeblocks.ValidChecksum, Storeblocks.headerSum]
    · simpa [Kernel.setPool] using hpos
    · simpa [Kernel.setPool, minSize_eq] using hklt
    · constructor <;> simp [Kernel.setPool, Kernel.freeList, hbe, hpos.ne]
    · intro c
      by_cases hc : c = b
      · simp [hc, hbe, Storeblocks.BlockIsFree]
      · by_cases hce : c = e
        · simp [hce, hbe.symm, Storeblocks.BlockIsFree, hsys]
        · simp [hc, hce]
    · simp [Storeblocks.BlockIsFree, hsys, Kernel.setPool]
    · simp [ResourceList, Kernel.setPool, hlists]
    · simp
    · simp
    · simp
    · simp
    · simp
    · intro c
      simp [Kernel.setPool, Storeblocks.BlockIsFree]
      grind
    · simp
    · simp [Apart, Storeblocks.BlockIsFree, hsys]

end PoolInv

/-! ## Sequences of calls -/

/-- A call on a pool. -/
inductive Call
  | alloc (size td : ℕ)
  | free (active memPtr : ℕ)
  | freePart (active memPtr size : ℕ)
  | transferTd (memPtr source target : ℕ)
  deriving DecidableEq

namespace Call

/-- The kernel after a call that returns. -/
def exec (mp : ℕ) (s : Kernel) : Call → Option Kernel
  | alloc size td => (memAllocInternal s size td mp).map Prod.snd
  | free active memPtr => (memFree s active memPtr).map Prod.snd
  | freePart active memPtr size => (memFreePart s active memPtr size).map Prod.snd
  | transferTd memPtr source target => (memTransferTdInternal s memPtr source target).map Prod.snd

/-- What callers provide: task descriptors have task numbers other than 0, and the
adjustment of a size does not overflow. The callers of `_mem_transfer_td_internal` have
checked the pointer for `NULL`. -/
def Valid : Call → Prop
  | alloc size td => adjustSize size ≠ 0 ∧ td ≠ 0
  | free _ _ => True
  | freePart _ _ size => adjustSize size ≠ 0
  | transferTd memPtr _ target => memPtr ≠ 0 ∧ target ≠ 0

instance : DecidablePred Valid
  | alloc _ _ => inferInstanceAs (Decidable (_ ∧ _))
  | free _ _ => isTrue trivial
  | freePart _ _ _ => inferInstanceAs (Decidable (_ ≠ _))
  | transferTd _ _ _ => inferInstanceAs (Decidable (_ ∧ _))

end Call

/-- A sequence of calls. -/
def run (mp : ℕ) (s : Kernel) (calls : List Call) : Option Kernel :=
  calls.foldlM (Call.exec mp) s

/-- One call keeps a pool well formed. -/
theorem WellFormed.exec {s : Kernel} {mp : ℕ} (h : WellFormed s mp) {c : Call} (hc : c.Valid) :
    ∃ s', c.exec mp s = some s' ∧ WellFormed s' mp := by
  obtain ⟨bs, fl, rl, i⟩ := h
  cases c with
  | alloc size td =>
    obtain ⟨r, s', he, ⟨-, hinv⟩ | ⟨f, b, g, rest, bs', -, -, -, hinv⟩⟩ :=
      i.memAllocInternal_spec hc.2 hc.1
    · exact ⟨s', by simp [Call.exec, he], bs, fl, rl, hinv⟩
    · exact ⟨s', by simp [Call.exec, he], bs', _, _, hinv⟩
  | free active memPtr =>
    rcases i.memFree_spec active memPtr with ⟨code, -, he⟩ |
      ⟨_, _, _, _, s', bs', fl', -, -, -, -, he, hinv, -⟩
    · exact ⟨s, by simp [Call.exec, he], bs, fl, rl, i⟩
    · exact ⟨s', by simp [Call.exec, he], bs', fl', _, hinv⟩
  | freePart active memPtr size =>
    obtain ⟨code, s', bs', fl', rl', he, hinv⟩ := i.memFreePart_spec active memPtr hc
    exact ⟨s', by simp [Call.exec, he], bs', fl', rl', hinv⟩
  | transferTd memPtr source target =>
    obtain ⟨code, s', rl', he, hinv⟩ := i.memTransferTdInternal_spec source hc.1 hc.2
    exact ⟨s', by simp [Call.exec, he], bs, fl, rl', hinv⟩

theorem WellFormed.run {s : Kernel} {mp : ℕ} (h : WellFormed s mp) {calls : List Call}
    (hcalls : ∀ c ∈ calls, c.Valid) : ∃ s', run mp s calls = some s' ∧ WellFormed s' mp := by
  induction calls generalizing s with
  | nil => exact ⟨s, rfl, h⟩
  | cons c calls ih =>
    obtain ⟨s1, he, h1⟩ := h.exec (hcalls c (by simp))
    obtain ⟨s', hrun, h'⟩ := ih h1 fun d hd => hcalls d (by simp [hd])
    exact ⟨s', by simpa [Mem.run, he] using hrun, h'⟩

/-- A pool built by `_mem_create_pool_internal` is well formed after every sequence of
calls, and every call returns. -/
theorem wellFormed_of_calls {s s0 : Kernel} {start end_ mp : ℕ} (hstart : start ≠ 0)
    (hfits : start + 271 < 2 ^ 32) (hend : end_ < 2 ^ 32)
    (hlists : ∀ t, s.memoryResourceList t = 0)
    (hcreate : memCreatePoolInternal s start end_ mp = (.ok, s0)) (calls : List Call)
    (hcalls : ∀ c ∈ calls, c.Valid) : ∃ s', run mp s0 calls = some s' ∧ WellFormed s' mp := by
  obtain ⟨b, e, i⟩ := PoolInv.memCreatePoolInternal_spec hstart hfits hend hlists hcreate
  exact WellFormed.run ⟨_, _, _, i⟩ hcalls

/-- A kernel without pools whose tasks own no memory. -/
def blankKernel : Kernel where
  heap := ⟨fun _ => 0, fun _ => 0, fun _ => 0, fun _ => 0, fun _ => 0, fun _ => 0, fun _ => 0,
    fun _ => 0⟩
  pools _ := ⟨0, 0, 0, 0, 0, 0, 0, 0, 0, 0, 0, 0, 0⟩
  memoryResourceList _ := 0
  memCompValid := mempoolValid
  memCompPools := []
  kdPool := 0

/-- A pool of five minimal blocks and the end sentinel. -/
def smallPool : Kernel := (memCreatePoolInternal blankKernel 0x1000 0x1120 1).2

theorem smallPool_created :
    memCreatePoolInternal blankKernel 0x1000 0x1120 1 = (.ok, smallPool) := by
  refine Prod.ext ?_ rfl
  decide +kernel

theorem smallPool_wellFormed : WellFormed smallPool 1 := by
  obtain ⟨b, e, i⟩ := PoolInv.memCreatePoolInternal_spec (by decide) (by decide) (by decide)
    (fun _ => rfl) smallPool_created
  exact ⟨_, _, _, i⟩

/-- A pool of seven minimal blocks and the end sentinel. -/
def mediumPool : Kernel := (memCreatePoolInternal blankKernel 0x1000 0x1180 1).2

theorem mediumPool_created :
    memCreatePoolInternal blankKernel 0x1000 0x1180 1 = (.ok, mediumPool) := by
  refine Prod.ext ?_ rfl
  decide +kernel

theorem mediumPool_wellFormed : WellFormed mediumPool 1 := by
  obtain ⟨b, e, i⟩ := PoolInv.memCreatePoolInternal_spec (by decide) (by decide) (by decide)
    (fun _ => rfl) mediumPool_created
  exact ⟨_, _, _, i⟩

theorem wellFormed_of_calls_smallPool :
    ∃ s', run 1 smallPool [.alloc 16 1, .alloc 60 2, .transferTd 0x1020 1 2, .freePart 2 0x1050 1,
      .free 2 0x1020] = some s' ∧ WellFormed s' 1 :=
  wellFormed_of_calls (by decide) (by decide) (by decide) (fun _ => rfl) smallPool_created _
    (by decide)

/-! ## The order of the free list -/

/-- The free list is in strictly increasing address order. -/
def FreeListSorted (s : Kernel) (mp : ℕ) : Prop :=
  ∃ fl, (s.freeList mp).Represents 0 fl ∧ fl.Pairwise (· < ·)

/-- The only free block is lower than `b`. -/
def OnlyFreeBelow (s : Kernel) (mp b : ℕ) : Prop :=
  (s.pools mp).poolFreeListPtr ≠ 0 ∧ s.heap.nextblock (s.pools mp).poolFreeListPtr = 0 ∧
    (s.pools mp).poolFreeListPtr < b

instance (s : Kernel) (mp b : ℕ) : Decidable (OnlyFreeBelow s mp b) :=
  inferInstanceAs (Decidable (_ ∧ _))

/-- Allocations and releases that keep the free list in order. A release goes wrong when
the block cannot be coalesced and the only free block is lower: the insertion loop ends at
that block, which is also the head of the list, and the new block is put in front. -/
def KeepsOrder (mp : ℕ) (s : Kernel) : Call → Prop
  | .alloc size td => adjustSize size ≠ 0 ∧ td ≠ 0
  | .free active memPtr => ¬(Accepts s active memPtr ∧
      NoFreeNeighbour s (getMemblockPtr memPtr) ∧ OnlyFreeBelow s mp (getMemblockPtr memPtr))
  | _ => False

instance (mp : ℕ) (s : Kernel) : DecidablePred (KeepsOrder mp s)
  | .alloc _ _ => inferInstanceAs (Decidable (_ ∧ _))
  | .free _ _ => inferInstanceAs (Decidable (¬_))
  | .freePart _ _ _ => isFalse id
  | .transferTd _ _ _ => isFalse id

/-- Every call of a sequence meets a condition on the state it is made in. -/
def StepsMeet (P : Kernel → Call → Prop) (mp : ℕ) : Kernel → List Call → Prop
  | _, [] => True
  | s, c :: calls => P s c ∧ ∀ s', c.exec mp s = some s' → StepsMeet P mp s' calls

instance instDecidableStepsMeet (P : Kernel → Call → Prop) [∀ s, DecidablePred (P s)] (mp : ℕ) :
    ∀ s calls, Decidable (StepsMeet P mp s calls)
  | _, [] => isTrue trivial
  | s, c :: calls =>
    match h : c.exec mp s with
    | none => decidable_of_iff (P s c) (by simp [StepsMeet, h])
    | some s' =>
      have := instDecidableStepsMeet P mp s' calls
      decidable_of_iff (P s c ∧ StepsMeet P mp s' calls) (by simp [StepsMeet, h])

theorem StepsMeet.left {P : Kernel → Call → Prop} {mp : ℕ} {s : Kernel} {pre post : List Call}
    (h : StepsMeet P mp s (pre ++ post)) : StepsMeet P mp s pre := by
  induction pre generalizing s with
  | nil => trivial
  | cons c pre ih => exact ⟨h.1, fun s' hs' => ih (h.2 s' hs')⟩

/-- The rest of an allocated block keeps its place in the order. -/
theorem sorted_alloc {s : Kernel} {mp b req : ℕ} {bs f g rest limbo stale : List ℕ}
    {rl : ℕ → List ℕ} (i : PoolInv s mp bs (f ++ b :: g) rl limbo stale)
    (hrest : rest = [] ∨ rest = [b + req] ∧ req < s.heap.blocksize b)
    (hsort : (f ++ b :: g).Pairwise (· < ·)) : (f ++ rest ++ g).Pairwise (· < ·) := by
  rcases hrest with rfl | ⟨rfl, hlt⟩
  · rw [List.append_nil]
    exact hsort.sublist ((List.sublist_cons_self b g).append_left f)
  · have hg : ∀ c ∈ g, b + req < c := by
      intro c hc
      have hbc : b < c :=
        (List.pairwise_cons.mp (List.pairwise_append.mp hsort).2.1).1 c hc
      have := i.phys.tiles.disjoint (i.mem_of_free (b := b) (by simp)).1
        (i.mem_of_free (b := c) (by simp [hc])).1 hbc
      omega
    rw [List.append_assoc, List.singleton_append]
    simp only [List.pairwise_append, List.pairwise_cons, List.mem_cons] at hsort ⊢
    obtain ⟨hf, ⟨-, hg'⟩, hfg⟩ := hsort
    refine ⟨hf, ⟨hg, hg'⟩, ?_⟩
    rintro a ha c (rfl | hc)
    · have := hfg a ha b (Or.inl rfl)
      omega
    · exact hfg a ha c (Or.inr hc)

theorem sorted_exec {s : Kernel} {mp : ℕ} {bs fl : List ℕ} {rl : ℕ → List ℕ}
    (i : PoolInv s mp bs fl rl [] []) (hsort : fl.Pairwise (· < ·)) {c : Call}
    (hc : KeepsOrder mp s c) :
    ∃ s' bs' fl' rl', c.exec mp s = some s' ∧ PoolInv s' mp bs' fl' rl' [] [] ∧
      fl'.Pairwise (· < ·) := by
  cases c with
  | alloc size td =>
    obtain ⟨r, s', he, ⟨-, hinv⟩ | ⟨f, b, g, rest, bs', rfl, -, hrest, hinv⟩⟩ :=
      i.memAllocInternal_spec hc.2 hc.1
    · exact ⟨s', bs, fl, rl, by simp [Call.exec, he], hinv, hsort⟩
    · exact ⟨s', bs', _, _, by simp [Call.exec, he], hinv, sorted_alloc i hrest hsort⟩
  | free active memPtr =>
    rcases i.memFree_spec active memPtr with ⟨code, -, he⟩ |
      ⟨b, _, _, _, s', bs', fl', hacc, -, -, hget, he, hinv, hsort'⟩
    · exact ⟨s, bs, fl, rl, by simp [Call.exec, he], i, hsort⟩
    · refine ⟨s', bs', fl', _, by simp [Call.exec, he], hinv, hsort' hsort ?_⟩
      rintro hn h rfl
      by_contra hlt
      have hhead : (s.pools mp).poolFreeListPtr = h := i.free.head_eq
      have hnext : s.heap.nextblock h = 0 := Layout.nextFree_eq (f := []) i.toLayout
      have h0 : h ≠ 0 := by
        rintro rfl
        exact i.free.null_notMem (by simp)
      refine hc ⟨hacc, hget ▸ hn, ?_⟩
      rw [OnlyFreeBelow, hhead, hget]
      exact ⟨h0, hnext, by omega⟩
  | freePart => exact absurd hc id
  | transferTd => exact absurd hc id

theorem sorted_run {s : Kernel} {mp : ℕ} {bs fl : List ℕ} {rl : ℕ → List ℕ}
    (i : PoolInv s mp bs fl rl [] []) (hsort : fl.Pairwise (· < ·)) {calls : List Call}
    (hcalls : StepsMeet (KeepsOrder mp) mp s calls) :
    ∃ s', run mp s calls = some s' ∧ FreeListSorted s' mp := by
  induction calls generalizing s bs fl rl with
  | nil => exact ⟨s, rfl, fl, i.free, hsort⟩
  | cons c calls ih =>
    obtain ⟨s1, bs1, fl1, rl1, he, h1, hsort1⟩ := sorted_exec i hsort hcalls.1
    obtain ⟨s', hrun, h'⟩ := ih h1 hsort1 (hcalls.2 s1 he)
    exact ⟨s', by simpa [run, he] using hrun, h'⟩

/-- The free list of a pool is in address order after every call of a sequence whose
releases do not put a block in front of a single lower one. -/
theorem freeListSorted_of_calls {s s0 : Kernel} {start end_ mp : ℕ} (hstart : start ≠ 0)
    (hfits : start + 271 < 2 ^ 32) (hend : end_ < 2 ^ 32)
    (hlists : ∀ t, s.memoryResourceList t = 0)
    (hcreate : memCreatePoolInternal s start end_ mp = (.ok, s0)) (calls : List Call)
    (hcalls : StepsMeet (KeepsOrder mp) mp s0 calls) :
    ∀ pre, pre <+: calls → ∃ s', run mp s0 pre = some s' ∧ FreeListSorted s' mp := by
  rintro pre ⟨post, rfl⟩
  obtain ⟨b, e, i⟩ := PoolInv.memCreatePoolInternal_spec hstart hfits hend hlists hcreate
  exact sorted_run i (by simp) hcalls.left

theorem freeListSorted_of_calls_smallPool :
    ∃ s', run 1 smallPool [.alloc 16 1, .alloc 16 2, .free 1 0x1020] = some s' ∧
      FreeListSorted s' 1 :=
  freeListSorted_of_calls (by decide) (by decide) (by decide) (fun _ => rfl) smallPool_created _
    (by decide +kernel) _ List.prefix_rfl

/-- The head of a sorted list is lower than its successor. -/
theorem FreeListSorted.head_lt {s : Kernel} {mp : ℕ} (h : FreeListSorted s mp)
    (h0 : (s.pools mp).poolFreeListPtr ≠ 0)
    (h1 : s.heap.nextblock (s.pools mp).poolFreeListPtr ≠ 0) :
    (s.pools mp).poolFreeListPtr < s.heap.nextblock (s.pools mp).poolFreeListPtr := by
  obtain ⟨fl, hr, hsort⟩ := h
  match fl, hr, hsort with
  | [], hr, _ => exact absurd hr.head_eq h0
  | [a], hr, _ =>
    have hhead : (s.pools mp).poolFreeListPtr = a := hr.head_eq
    rw [hhead] at h1
    exact absurd (DList.Represents.next_eq (l := []) hr) h1
  | a :: b :: fl, hr, hsort =>
    have hhead : (s.pools mp).poolFreeListPtr = a := hr.head_eq
    have hnext : s.heap.nextblock a = b := DList.Represents.next_eq (l := []) hr
    rw [hhead, hnext]
    exact (List.pairwise_cons.mp hsort).1 b (by simp)

/-- Releasing the third of four blocks after the first puts it in front of the first. -/
theorem freeList_not_sorted_after_second_free : ∃ s',
    run 1 smallPool [.alloc 16 1, .alloc 16 1, .alloc 16 1, .alloc 16 1, .free 1 0x1020,
      .free 1 0x1080] = some s' ∧ ¬FreeListSorted s' 1 := by
  have h : (run 1 smallPool [.alloc 16 1, .alloc 16 1, .alloc 16 1, .alloc 16 1, .free 1 0x1020,
      .free 1 0x1080]).map (fun s => ((s.pools 1).poolFreeListPtr,
        s.heap.nextblock (s.pools 1).poolFreeListPtr)) = some (0x1060, 0x1000) := by
    decide +kernel
  obtain ⟨s', hs', he⟩ := Option.map_eq_some_iff.mp h
  obtain ⟨h0, h1⟩ := Prod.mk.inj he
  refine ⟨s', hs', fun hsort => ?_⟩
  have hlt := hsort.head_lt (by rw [h0]; decide) (by rw [h1]; decide)
  rw [h1, h0] at hlt
  exact absurd hlt (by decide)

end Mqx.Mem
