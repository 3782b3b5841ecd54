import Mqx.Mem.Calls
import Mqx.Mem.LwmemFree

/-!
# The usable size of an allocated block

Both allocators add the header to the requested size and round up before they compare with the
sizes of free blocks, in 32-bit arithmetic. Near the end of the range one of the two sums wraps
around, the request becomes the minimal one or 0, and any free block serves it.
-/

namespace Mqx
namespace Mem

/-- `_mem_get_size`: the size, the task error code, and the kernel, whose
`KD_POOL.POOL_BLOCK_IN_ERROR` may be set. -/
def memGetSize (s : Kernel) (memPtr : ℕ) : ℕ × MqxCode × Kernel :=
  let block := getMemblockPtr memPtr
  let size := s.heap.blocksize block
  if memPtr = 0 then (0, .invalidPointer, s)
  else if ¬MemoryAligned block then (0, .invalidPointer, s)
  else if s.heap.BlockIsFree block then (0, .corruptStoragePool, s.kdPoolBlockInError block)
  else if ¬s.heap.ValidChecksum block then (0, .invalidChecksum, s.kdPoolBlockInError block)
  else if size ≤ userAreaOffset then (0, .corruptStoragePool, s.kdPoolBlockInError block)
  else (sub32 size userAreaOffset, .ok, s)

/-- `_mem_alloc_internal` returns, and a block it returns has room for the request. -/
def ServesSize (s : Kernel) (td mp size : ℕ) : Prop :=
  ∃ ptr code s', memAllocInternal s size td mp = some ((ptr, code), s') ∧
    (ptr ≠ 0 → size ≤ (memGetSize s' ptr).1)

theorem adjustSize_eq (size : ℕ) : adjustSize size =
    memoryAlignValLarger (if (size + 32) % 4294967296 < 48 then 48 else (size + 32) % 4294967296) :=
  rfl

/-- The adjustment does not wrap around: the header fits. -/
theorem add_le_adjustSize {size : ℕ} (h : size + 47 < 2 ^ 32) : size + 32 ≤ adjustSize size := by
  have hmod : (size + 32) % 4294967296 = size + 32 := Nat.mod_eq_of_lt (by omega)
  rw [adjustSize_eq, hmod]
  have hpos : ∀ v, v < 4294967296 - 15 → v ≤ memoryAlignValLarger v := by
    intro v hv
    have hdef : memoryAlignValLarger v = (v + 15) % 4294967296 - (v + 15) % 4294967296 % 16 := rfl
    rw [hdef, Nat.mod_eq_of_lt (by omega)]
    omega
  split_ifs with hmin
  · exact (Nat.le_of_lt hmin).trans (hpos 48 (by decide))
  · exact hpos _ (by omega)

/-- The adjustment wraps around: what is left is at most the minimal request. -/
theorem adjustSize_le_of_wrap {size : ℕ} (hlt : size < 2 ^ 32) (h : 2 ^ 32 ≤ size + 47) :
    adjustSize size ≤ 48 := by
  rw [adjustSize_eq]
  split_ifs with hmin
  · decide
  · have hmod : (size + 32) % 4294967296 = size + 32 := by
      by_contra hne
      have : 4294967296 ≤ size + 32 := by
        by_contra hlt
        exact hne (Nat.mod_eq_of_lt (by omega))
      omega
    have hdef : memoryAlignValLarger (size + 32) =
        (size + 32 + 15) % 4294967296 - (size + 32 + 15) % 4294967296 % 16 := rfl
    rw [hmod, hdef]
    omega

/-- The size of the block that serves a request. -/
theorem allocBlock_blocksize (s : Kernel) (td mp b req : ℕ) :
    (s.allocBlock td mp b req).heap.blocksize b =
      if 2 * mqxMinMemoryStorageSize ≤ sub32 (s.heap.blocksize b) req then req
      else s.heap.blocksize b := by
  rcases allocBlock_cases s td mp b req with ⟨hle, he⟩ | ⟨hlt, he⟩
  · rw [he, if_pos hle, Kernel.takeBlock_heap]
    exact Function.update_self ..
  · rw [he, if_neg (Nat.not_le_of_lt hlt), Kernel.takeBlock_heap]
    exact Function.update_self ..

/-- Whatever `_mem_get_size` finds, it reports no more than the size of the block. -/
theorem memGetSize_le (s : Kernel) {b : ℕ} (hb : b + 48 < 2 ^ 32)
    (hsize : s.heap.blocksize b < 2 ^ 32) :
    (memGetSize s (userAreaPtr b)).1 ≤ s.heap.blocksize b := by
  simp only [memGetSize, getMemblockPtr_userAreaPtr hb]
  split_ifs with h1 h2 h3 h4 h5
  · exact Nat.zero_le _
  · exact Nat.zero_le _
  · exact Nat.zero_le _
  · simp only [userAreaOffset] at h5 ⊢
    rw [sub32_of_le (by omega) hsize]
    omega
  · exact Nat.zero_le _
  · exact Nat.zero_le _

/-- `_mem_get_size` of a block that a task owns. -/
theorem PoolInv.memGetSize_eq {s : Kernel} {mp b : ℕ} {bs fl : List ℕ} {rl : ℕ → List ℕ}
    (i : PoolInv s mp bs fl rl [] []) (td : ℕ) (hb : b ∈ rl td) :
    (memGetSize s (userAreaPtr b)).1 = s.heap.blocksize b - 32 := by
  obtain ⟨hbs, -, hused⟩ := i.of_res hb
  have hbb := i.phys.bounds hbs
  have hal : MemoryAligned b := hbb.1
  have hsum := i.phys.sums b hbs (by simp)
  have hsize : ¬s.heap.blocksize b ≤ userAreaOffset := by
    simp only [userAreaOffset]
    omega
  simp only [memGetSize, getMemblockPtr_userAreaPtr (show b + 48 < 2 ^ 32 by omega),
    if_neg (userAreaPtr_ne_zero (show b + 48 < 2 ^ 32 by omega)), hal, hused, hsum, hsize,
    not_true_eq_false, if_false]
  exact sub32_of_le (by omega) (by omega)

theorem servesSize_iff {s : Kernel} {td mp size : ℕ} (hw : WellFormed s mp) (htd : td ≠ 0)
    (hsize : size < 2 ^ 32) :
    ServesSize s td mp size ↔ size + 47 < 2 ^ 32 ∨ (s.pools mp).poolFreeListPtr = 0 := by
  obtain ⟨bs, fl, rl, i⟩ := hw
  have hhead : (s.pools mp).poolFreeListPtr = fl.headD 0 := i.free.head_eq
  rcases i.memAllocInternal_cases td size with ⟨s', hrun, -, hsmall, -⟩ |
    ⟨f, b, g, rfl, -, hfit, hrun⟩
  · -- nothing is returned; a request that has wrapped around fits into every block
    have hserves : ServesSize s td mp size := ⟨_, _, _, hrun, fun h => absurd rfl h⟩
    refine ⟨fun _ => ?_, fun _ => hserves⟩
    by_cases hwrap : size + 47 < 2 ^ 32
    · exact Or.inl hwrap
    · right
      cases fl with
      | nil => exact hhead
      | cons b g =>
        have h1 := hsmall b (by simp)
        have h2 := adjustSize_le_of_wrap hsize (Nat.le_of_not_lt hwrap)
        have h3 := (i.phys.bounds (i.mem_of_free (b := b) (by simp)).1).2.2.1
        omega
  · have hmem : b ∈ f ++ b :: g := by simp
    have hbb := i.phys.bounds (i.mem_of_free hmem).1
    have hptr : userAreaPtr b ≠ 0 := userAreaPtr_ne_zero (by omega)
    have hhead0 : (s.pools mp).poolFreeListPtr ≠ 0 := by
      rw [hhead]
      intro h0
      cases f with
      | nil =>
        have hb0 : b = 0 := h0
        omega
      | cons c f =>
        have hc0 : c = 0 := h0
        have := i.phys.bounds (i.mem_of_free (b := c) (by simp)).1
        omega
    have hheap : (PoolInv.atWindow s mp b).heap = s.heap := rfl
    have hblock := allocBlock_blocksize (PoolInv.atWindow s mp b) td mp b (adjustSize size)
    rw [hheap] at hblock
    have hserves : ServesSize s td mp size ↔ size ≤ (memGetSize
        ((PoolInv.atWindow s mp b).allocBlock td mp b (adjustSize size)) (userAreaPtr b)).1 := by
      constructor
      · rintro ⟨ptr, code, s', hrun', hle⟩
        obtain ⟨hp, rfl⟩ := Prod.mk.inj (Option.some.inj (hrun.symm.trans hrun'))
        obtain ⟨rfl, -⟩ := Prod.mk.inj hp
        exact hle hptr
      · intro hle
        exact ⟨_, _, _, hrun, fun _ => hle⟩
    rw [hserves]
    by_cases hwrap : size + 47 < 2 ^ 32
    · refine iff_of_true ?_ (Or.inl hwrap)
      obtain ⟨hreq, hal⟩ := adjustSize_spec (adjustSize_ne_zero hwrap)
      obtain ⟨bs', rest, -, hinv⟩ := (i.inv_atWindow b).allocBlock htd hreq hal hfit
      rw [hinv.memGetSize_eq td (by simp), hblock]
      have hadd := add_le_adjustSize hwrap
      have hroom : ∀ k, k = adjustSize size ∨ k = s.heap.blocksize b → size ≤ k - 32 := by
        intro k hk
        omega
      refine hroom _ ?_
      split_ifs
      · exact Or.inl rfl
      · exact Or.inr rfl
    · refine iff_of_false ?_ (not_or.mpr ⟨hwrap, hhead0⟩)
      have hreq := adjustSize_le_of_wrap hsize (Nat.le_of_not_lt hwrap)
      have hsub : sub32 (s.heap.blocksize b) (adjustSize size) =
          s.heap.blocksize b - adjustSize size := sub32_of_le hfit (by omega)
      have hsmall : ((PoolInv.atWindow s mp b).allocBlock td mp b
          (adjustSize size)).heap.blocksize b < 144 := by
        rw [hblock, hsub, minSize_eq]
        split_ifs with hrest
        · exact Nat.lt_of_le_of_lt hreq (by decide)
        · omega
      have hle := memGetSize_le ((PoolInv.atWindow s mp b).allocBlock td mp b (adjustSize size))
        (b := b) (by omega) (by omega)
      omega

end Mem

namespace Lwmem

open Mem (sub32_of_le add32_of_lt)

/-- `_lwmem_alloc_internal` returns, and a block it returns has room for the request. -/
def ServesSize (s : State) (td mp size : ℕ) : Prop :=
  ∃ ptr code s', lwmemAllocInternal s size td mp = some ((ptr, code), s') ∧
    (ptr ≠ 0 → size ≤ (lwmemGetSize s' ptr).1)

theorem adjustSize_eq (size : ℕ) : adjustSize size =
    memoryAlignValLarger (if (size + 12) % 4294967296 < 16 then 16 else (size + 12) % 4294967296) :=
  rfl

theorem add_le_adjustSize {size : ℕ} (h : size + 27 < 2 ^ 32) : size + 12 ≤ adjustSize size := by
  have hmod : (size + 12) % 4294967296 = size + 12 := Nat.mod_eq_of_lt (by omega)
  rw [adjustSize_eq, hmod]
  have hpos : ∀ v, v < 4294967296 - 15 → v ≤ memoryAlignValLarger v := by
    intro v hv
    have hdef : memoryAlignValLarger v = (v + 15) % 4294967296 - (v + 15) % 4294967296 % 16 := rfl
    rw [hdef, Nat.mod_eq_of_lt (by omega)]
    omega
  split_ifs with hmin
  · exact (Nat.le_of_lt hmin).trans (hpos 16 (by decide))
  · exact hpos _ (by omega)

theorem adjustSize_le_of_wrap {size : ℕ} (hlt : size < 2 ^ 32) (h : 2 ^ 32 ≤ size + 27) :
    adjustSize size ≤ 16 := by
  rw [adjustSize_eq]
  split_ifs with hmin
  · decide
  · have hmod : (size + 12) % 4294967296 = size + 12 := by
      by_contra hne
      have : 4294967296 ≤ size + 12 := by
        by_contra hlt
        exact hne (Nat.mod_eq_of_lt (by omega))
      omega
    have hdef : memoryAlignValLarger (size + 12) =
        (size + 12 + 15) % 4294967296 - (size + 12 + 15) % 4294967296 % 16 := rfl
    rw [hmod, hdef]
    omega

theorem unlink_blocksize (s : State) (mp b prev next : ℕ) :
    (s.unlink mp b prev next).heap.blocksize = s.heap.blocksize := by
  simp only [State.unlink]
  split_ifs <;> rfl

theorem allocBlock_blocksize (s : State) (td mp b prev req : ℕ) :
    (s.allocBlock td mp b prev req).heap.blocksize b =
      if lwmemMinMemoryStorageSize ≤ sub32 (s.heap.blocksize b) req then req
      else s.heap.blocksize b := by
  simp only [State.allocBlock]
  split_ifs with h
  · simp only [State.rememberHighwater_heap, State.markUsed, unlink_blocksize, State.setSize,
      Function.update_self]
  · simp only [State.rememberHighwater_heap, State.markUsed, unlink_blocksize]

/-- `_lwmem_get_size` reports the size of the block less the header. -/
theorem lwmemGetSize_eq (s : State) {b : ℕ} (hb : b + 12 < 2 ^ 32)
    (hsize : s.heap.blocksize b < 2 ^ 32) :
    (lwmemGetSize s (userPtr b)).1 = s.heap.blocksize b - 12 := by
  have huser : userPtr b = b + 12 := add32_of_lt hb
  have hget : getLwmemblockPtr (b + 12) = b := by
    simp only [getLwmemblockPtr, sizeofLwmemBlock]
    rw [sub32_of_le (by omega) (by omega)]
    omega
  simp only [lwmemGetSize, huser, hget, if_neg (show b + 12 ≠ 0 by omega), sizeofLwmemBlock]
  by_cases hsmall : s.heap.blocksize b ≤ 12
  · rw [if_pos hsmall]
    exact (Nat.sub_eq_zero_of_le hsmall).symm
  · rw [if_neg hsmall]
    exact sub32_of_le (by omega) hsize

theorem servesSize_iff {s : State} {td mp unit size : ℕ} (hw : WellFormed s mp unit)
    (hsize : size < 2 ^ 32) :
    ServesSize s td mp size ↔ size + 27 < 2 ^ 32 ∨ (s.pools mp).poolFreeListPtr = 0 := by
  obtain ⟨bs, fl, i⟩ := hw
  have hhead : (s.pools mp).poolFreeListPtr = fl.headD 0 := i.head_eq
  obtain ⟨a, s', hrun, hout⟩ := i.toLayout.alloc_cases (allocRequest_readsHeap (adjustSize size) td mp)
  have hrun' : lwmemAllocInternal s size td mp = some (a, s') := hrun
  cases hout with
  | none hnone hres hstate =>
    subst hres
    have hserves : ServesSize s td mp size := ⟨_, _, _, hrun', fun h => absurd rfl h⟩
    refine ⟨fun _ => ?_, fun _ => hserves⟩
    by_cases hwrap : size + 27 < 2 ^ 32
    · exact Or.inl hwrap
    · right
      cases fl with
      | nil => exact hhead
      | cons b g =>
        have h1 : ¬adjustSize size ≤ s.heap.blocksize b := hnone b (by simp)
        have h2 := adjustSize_le_of_wrap hsize (Nat.le_of_not_lt hwrap)
        have h3 := (i.bounds (i.free_mem b (by simp))).1
        omega
  | first pre post b prev hg hskip hfits hprev hres hstate =>
    subst hg hres
    have hmem : b ∈ pre ++ b :: post := by simp
    have hbb := i.bounds (i.free_mem b hmem)
    have hfit : adjustSize size ≤ s.heap.blocksize b := hfits
    have hhead0 : (s.pools mp).poolFreeListPtr ≠ 0 := by
      intro h0
      rw [hhead] at h0
      refine i.null_notMem ?_
      rw [← h0]
      cases pre <;> simp
    have hptr : userPtr b ≠ 0 := by
      rw [userPtr, add32_of_lt (by simp only [sizeofLwmemBlock]; omega)]
      simp only [sizeofLwmemBlock]
      omega
    have hheap : s'.heap = ((s.atWindow mp b).allocBlock td mp b prev (adjustSize size)).heap := by
      rw [hstate, State.resetPointers_heap]
      rfl
    have hblock : s'.heap.blocksize b =
        if lwmemMinMemoryStorageSize ≤ sub32 (s.heap.blocksize b) (adjustSize size) then
          adjustSize size else s.heap.blocksize b := by
      rw [hheap]
      exact allocBlock_blocksize (s.atWindow mp b) td mp b prev (adjustSize size)
    have hlt : s'.heap.blocksize b < 2 ^ 32 := by
      rw [hblock]
      split_ifs <;> omega
    have hserves : ServesSize s td mp size ↔ size ≤ s'.heap.blocksize b - 12 := by
      rw [← lwmemGetSize_eq s' (by omega) hlt]
      constructor
      · rintro ⟨ptr, code, t, hrun2, hle⟩
        obtain ⟨hp, rfl⟩ := Prod.mk.inj (Option.some.inj (hrun'.symm.trans hrun2))
        obtain ⟨rfl, -⟩ := Prod.mk.inj hp
        exact hle hptr
      · intro hle
        exact ⟨_, _, _, hrun', fun _ => hle⟩
    rw [hserves, hblock]
    have hsub : sub32 (s.heap.blocksize b) (adjustSize size) =
        s.heap.blocksize b - adjustSize size := sub32_of_le hfit (by omega)
    rw [hsub, minSize_eq]
    by_cases hwrap : size + 27 < 2 ^ 32
    · refine iff_of_true ?_ (Or.inl hwrap)
      have hadd := add_le_adjustSize hwrap
      split_ifs <;> omega
    · refine iff_of_false ?_ (not_or.mpr ⟨hwrap, hhead0⟩)
      have hreq := adjustSize_le_of_wrap hsize (Nat.le_of_not_lt hwrap)
      split_ifs <;> omega

/-- No pools and no blocks. -/
def blankState : State where
  heap := ⟨fun _ => 0, fun _ => 0, fun _ => 0⟩
  pools _ := ⟨0, 0, 0, 0, 0, 0, 0, 0, 0, 0⟩

/-- A pool of 256 bytes. -/
def smallPool : State := lwmemCreatePool blankState 1 0x1000 0x100

theorem smallPool_inv : PoolInv smallPool 1 16 [0x1000] [0x1000] :=
  PoolInv.lwmemCreatePool blankState 1 (by decide) (by decide) (by decide) (by decide)

end Lwmem

/-- In a well formed pool a block that is returned has room for the request exactly when the
size adjustment does not wrap around, or when nothing can be returned because no block is
free. -/
theorem alloc_usable_size (td mp size : ℕ) :
    (∀ s : Mem.Kernel, Mem.WellFormed s mp → td ≠ 0 → size < 2 ^ 32 →
      (Mem.ServesSize s td mp size ↔
        size + 47 < 2 ^ 32 ∨ (s.pools mp).poolFreeListPtr = 0)) ∧
    ∀ (s : Lwmem.State) (unit : ℕ), Lwmem.WellFormed s mp unit → size < 2 ^ 32 →
      (Lwmem.ServesSize s td mp size ↔
        size + 27 < 2 ^ 32 ∨ (s.pools mp).poolFreeListPtr = 0) :=
  ⟨fun _ hw htd hsize => Mem.servesSize_iff hw htd hsize,
    fun _ _ hw hsize => Lwmem.servesSize_iff hw hsize⟩

theorem alloc_usable_size_smallPool :
    Mem.ServesSize Mem.smallPool 1 1 16 ∧ Lwmem.ServesSize Lwmem.smallPool 1 1 16 := by
  constructor
  · exact ((alloc_usable_size 1 1 16).1 Mem.smallPool Mem.smallPool_wellFormed (by decide)
      (by decide)).mpr (Or.inl (by decide))
  · exact ((alloc_usable_size 1 1 16).2 Lwmem.smallPool 16 ⟨_, _, Lwmem.smallPool_inv⟩
      (by decide)).mpr (Or.inl (by decide))

/-- A request of 2^32 - 1 bytes is served with a minimal block by both allocators. -/
theorem alloc_usable_size_fails :
    (Mem.WellFormed Mem.smallPool 1 ∧ ∃ s',
      Mem.memAllocInternal Mem.smallPool 0xffffffff 1 1 = some ((0x1020, .ok), s') ∧
        (Mem.memGetSize s' 0x1020).1 = 16) ∧
    Lwmem.WellFormed Lwmem.smallPool 1 16 ∧ ∃ s',
      Lwmem.lwmemAllocInternal Lwmem.smallPool 0xffffffff 1 1 = some ((0x100c, .ok), s') ∧
        (Lwmem.lwmemGetSize s' 0x100c).1 = 4 := by
  refine ⟨⟨Mem.smallPool_wellFormed, ?_⟩, ⟨_, _, Lwmem.smallPool_inv⟩, ?_⟩
  · have h : (Mem.memAllocInternal Mem.smallPool 0xffffffff 1 1).map
        (fun r => (r.1, (Mem.memGetSize r.2 0x1020).1)) = some ((0x1020, .ok), 16) := by
      decide +kernel
    obtain ⟨⟨a, s'⟩, hs', he⟩ := Option.map_eq_some_iff.mp h
    obtain ⟨rfl, hsize⟩ := Prod.mk.inj he
    exact ⟨s', hs', hsize⟩
  · have h : (Lwmem.lwmemAllocInternal Lwmem.smallPool 0xffffffff 1 1).map
        (fun r => (r.1, (Lwmem.lwmemGetSize r.2 0x100c).1)) = some ((0x100c, .ok), 4) := by
      decide +kernel
    obtain ⟨⟨a, s'⟩, hs', he⟩ := Option.map_eq_some_iff.mp h
    obtain ⟨rfl, hsize⟩ := Prod.mk.inj he
    exact ⟨s', hs', hsize⟩

end Mqx
