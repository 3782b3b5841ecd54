import Mathlib.Data.List.Pairwise
import Mqx.Mem.Storeblock

/-!
# Pool extension

Model of `_mem_extend_pool_internal`: an area of memory becomes part of a pool, as a block in
use at its start, one free block, and a block in use at its end. The size check is made on the
whole area, the header of the extension and the alignments are taken off it afterwards.
-/

namespace Mqx.Mem

open Function (update)

/-- The result codes of `_mem_extend_pool_internal`. -/
inductive ExtendCode
  | ok
  | invalidSize
  | invalidComponentHandle
deriving DecidableEq

/-- `MEMPOOL_EXTENSION_STRUCT` without its link. -/
structure MempoolExtension where
  realStart : ℕ
  start : ℕ
  size : ℕ
deriving DecidableEq

/-- `sizeof(MEMPOOL_EXTENSION_STRUCT)`. -/
def sizeofMempoolExtension : ℕ := 20

/-- Where the three blocks of an extension are. -/
structure ExtendLayout where
  block : ℕ
  freeBlock : ℕ
  freeBlockSize : ℕ
  endBlock : ℕ
deriving DecidableEq

/-- The address arithmetic of `_mem_extend_pool_internal`. -/
def extendLayout (startOfPool size : ℕ) : ExtendLayout :=
  let ext := memoryAlignValLarger startOfPool
  let realStart := memoryAlignValLarger (add32 ext sizeofMempoolExtension)
  let endOfPool := alignAddrToLowerMem (add32 startOfPool size)
  let realSize := sub32 endOfPool realStart
  let freeBlock := add32 realStart mqxMinMemoryStorageSize
  let freeBlockSize := sub32 realSize (2 * mqxMinMemoryStorageSize)
  ⟨realStart, freeBlock, freeBlockSize, add32 freeBlock freeBlockSize⟩

namespace Storeblocks

/-- The header of one block of an extension. -/
def setHeader (h : Storeblocks) (block size prev next taskNumber : ℕ) : Storeblocks :=
  calcChecksum
    { h with
      blocksize := update h.blocksize block size
      memType := update h.memType block 0
      userArea := update h.userArea block 0
      prevblock := update h.prevblock block prev
      nextblock := update h.nextblock block next
      taskNumber := update h.taskNumber block taskNumber }
    block

/-- The headers that `_mem_extend_pool_internal` writes, in its order. -/
def setExtension (h : Storeblocks) (l : ExtendLayout) : Storeblocks :=
  let h := h.setHeader l.block mqxMinMemoryStorageSize 0 l.freeBlock systemTaskNumber
  let h := h.setHeader l.freeBlock l.freeBlockSize l.block l.endBlock 0
  h.setHeader l.endBlock mqxMinMemoryStorageSize l.freeBlock 0 systemTaskNumber

end Storeblocks

/-- `_mem_extend_pool_internal`: the code, the memory, and the header that is put at the start
of the area and enqueued on `EXT_LIST`. -/
def memExtendPoolInternal (s : Kernel) (startOfPool size mp : ℕ) :
    ExtendCode × Kernel × Option (ℕ × MempoolExtension) :=
  if size < 3 * mqxMinMemoryStorageSize then (.invalidSize, s, none)
  else if (s.pools mp).valid ≠ mempoolValid then (.invalidComponentHandle, s, none)
  else
    let l := extendLayout startOfPool size
    let s := { s with heap := s.heap.setExtension l }
    let s := s.setFreeList mp ((s.freeList mp).insertHead 0 l.freeBlock)
    let p := s.pools mp
    (.ok, s.setPool mp { p with poolFreeCurrentBlock := p.poolFreeListPtr },
      some (memoryAlignValLarger startOfPool, ⟨l.block, startOfPool, size⟩))

/-- The block at `b` lies in an area, and so in the address space. -/
def BlockInside (h : Storeblocks) (start size b : ℕ) : Prop :=
  start ≤ b ∧ b + h.blocksize b ≤ start + size ∧ b + h.blocksize b ≤ 2 ^ 32

/-- Two blocks share no byte. -/
def BlocksApart (h : Storeblocks) (b c : ℕ) : Prop :=
  b + h.blocksize b ≤ c ∨ c + h.blocksize c ≤ b

/-- The three blocks of an extension are blocks of a pool. -/
structure ExtensionFits (h : Storeblocks) (start size : ℕ) (l : ExtendLayout) : Prop where
  inside : BlockInside h start size l.block ∧ BlockInside h start size l.freeBlock ∧
    BlockInside h start size l.endBlock
  apart : BlocksApart h l.block l.freeBlock ∧ BlocksApart h l.freeBlock l.endBlock ∧
    BlocksApart h l.block l.endBlock
  minimal : mqxMinMemoryStorageSize ≤ h.blocksize l.freeBlock

/-- An area has room for the header and three blocks once both of its ends are aligned. -/
def HasRoom (start size : ℕ) : Prop :=
  16 * ((start + 15) / 16) + 176 ≤ 16 * ((start + size) / 16) ∧ start + size < 2 ^ 32 + 16

instance (start size : ℕ) : Decidable (HasRoom start size) :=
  inferInstanceAs (Decidable (_ ∧ _))

theorem setExtension_blocksize (h : Storeblocks) (l : ExtendLayout) :
    (h.setExtension l).blocksize =
      update (update (update h.blocksize l.block mqxMinMemoryStorageSize) l.freeBlock
        l.freeBlockSize) l.endBlock mqxMinMemoryStorageSize := rfl

theorem memExtendPoolInternal_blocksize {s : Kernel} {start size mp : ℕ}
    (hok : (memExtendPoolInternal s start size mp).1 = .ok) :
    (memExtendPoolInternal s start size mp).2.1.heap.blocksize =
        (s.heap.setExtension (extendLayout start size)).blocksize ∧
      3 * mqxMinMemoryStorageSize ≤ size := by
  unfold memExtendPoolInternal at hok ⊢
  by_cases hsize : size < 3 * mqxMinMemoryStorageSize
  · rw [if_pos hsize] at hok
    cases hok
  · by_cases hvalid : (s.pools mp).valid ≠ mempoolValid
    · rw [if_neg hsize, if_pos hvalid] at hok
      cases hok
    · rw [if_neg hsize, if_neg hvalid]
      exact ⟨rfl, Nat.le_of_not_lt hsize⟩

/-- Where the blocks of an area with room are: its ends are aligned and nothing wraps. -/
theorem extendLayout_of_hasRoom {start size : ℕ} (h : HasRoom start size) :
    extendLayout start size =
      ⟨16 * ((start + 15) / 16) + 32, 16 * ((start + 15) / 16) + 80,
        16 * ((start + size) / 16) - 16 * ((start + 15) / 16) - 128,
        16 * ((start + size) / 16) - 48⟩ := by
  obtain ⟨hroom, hlimit⟩ := h
  have hext : memoryAlignValLarger start = 16 * ((start + 15) / 16) := by
    simp only [memoryAlignValLarger, alignAddrToLowerMem, add32, pspMemoryAlignment,
      pspCacheLineSize]
    omega
  have hreal : memoryAlignValLarger (add32 (16 * ((start + 15) / 16)) sizeofMempoolExtension) =
      16 * ((start + 15) / 16) + 32 := by
    simp only [memoryAlignValLarger, alignAddrToLowerMem, add32, pspMemoryAlignment,
      pspCacheLineSize, sizeofMempoolExtension]
    omega
  have hsize : sub32 (alignAddrToLowerMem (add32 start size)) (16 * ((start + 15) / 16) + 32) =
      16 * ((start + size) / 16) - (16 * ((start + 15) / 16) + 32) := by
    simp only [alignAddrToLowerMem, add32, sub32, pspCacheLineSize]
    omega
  have hmin : mqxMinMemoryStorageSize = 48 := by decide
  simp only [extendLayout, hext, hreal, hsize, hmin]
  simp only [add32, sub32, ExtendLayout.mk.injEq, true_and]
  refine ⟨?_, ?_, ?_⟩
  · omega
  · omega
  · omega

variable {s : Kernel} {start size mp : ℕ}

/-- The extension of a pool by an area is right just when the area has room for the header and
three blocks after both of its ends have been aligned. The size check asks for 144 bytes, room
takes from 176 to 191 of them. -/
theorem mem_extend_pool (hstart : start < 2 ^ 32) (hsize : size < 2 ^ 32)
    (hok : (memExtendPoolInternal s start size mp).1 = .ok) :
    ExtensionFits (memExtendPoolInternal s start size mp).2.1.heap start size
      (extendLayout start size) ↔ HasRoom start size := by
  obtain ⟨hblocks, hcheck⟩ := memExtendPoolInternal_blocksize hok
  have hmin : mqxMinMemoryStorageSize = 48 := by decide
  rw [setExtension_blocksize, hmin] at hblocks
  rw [hmin] at hcheck
  constructor
  · rintro ⟨⟨hin₁, hin₂, hin₃⟩, ⟨hap₁, hap₂, hap₃⟩, hfree⟩
    simp only [BlockInside, BlocksApart] at hin₁ hin₂ hin₃ hap₁ hap₂ hap₃
    rw [hmin] at hfree
    rw [hblocks] at hin₁ hin₂ hin₃ hap₁ hap₂ hap₃ hfree
    have hend : (extendLayout start size).endBlock ≠ (extendLayout start size).freeBlock := by
      intro he
      rw [he] at hap₂
      simp only [Function.update_self] at hap₂
      omega
    rw [Function.update_of_ne hend.symm, Function.update_self] at hin₂ hfree
    rw [Function.update_self] at hin₃
    -- From here on it is arithmetic on the layout.
    clear hap₁ hap₂ hap₃ hblocks hend
    simp only [extendLayout, memoryAlignValLarger, alignAddrToLowerMem, add32, sub32,
      pspMemoryAlignment, pspCacheLineSize, sizeofMempoolExtension, hmin] at hin₁ hin₂ hin₃ hfree
    have hnowrap : start + 15 < 2 ^ 32 := by
      by_contra hwrap
      omega
    have hext : (start + 15) % 2 ^ 32 - (start + 15) % 2 ^ 32 % 16 =
        16 * ((start + 15) / 16) := by omega
    simp only [Nat.reduceSub, hext] at hin₁ hin₂ hin₃ hfree
    generalize hr : ((16 * ((start + 15) / 16) + 20) % 2 ^ 32 + 15) % 2 ^ 32 -
      ((16 * ((start + 15) / 16) + 20) % 2 ^ 32 + 15) % 2 ^ 32 % 16 = r at *
    have hreal : r = 16 * ((start + 15) / 16) + 32 := by omega
    have hf : (r + 48) % 2 ^ 32 = r + 48 := by omega
    rw [hf] at hin₂ hin₃
    generalize he : (start + size) % 2 ^ 32 - (start + size) % 2 ^ 32 % 16 = e at *
    constructor
    · omega
    · omega
  · intro hroom
    have hl := extendLayout_of_hasRoom hroom
    obtain ⟨hroom, hlimit⟩ := hroom
    have hne₁ : 16 * ((start + size) / 16) - 48 ≠ 16 * ((start + 15) / 16) + 32 := by omega
    have hne₂ : 16 * ((start + size) / 16) - 48 ≠ 16 * ((start + 15) / 16) + 80 := by omega
    have hne₃ : 16 * ((start + 15) / 16) + 32 ≠ 16 * ((start + 15) / 16) + 80 := by omega
    rw [hl] at hblocks ⊢
    have hb₁ : (memExtendPoolInternal s start size mp).2.1.heap.blocksize
        (16 * ((start + 15) / 16) + 32) = 48 := by
      rw [hblocks, Function.update_of_ne hne₁.symm, Function.update_of_ne hne₃,
        Function.update_self]
    have hb₂ : (memExtendPoolInternal s start size mp).2.1.heap.blocksize
        (16 * ((start + 15) / 16) + 80) =
          16 * ((start + size) / 16) - 16 * ((start + 15) / 16) - 128 := by
      rw [hblocks, Function.update_of_ne hne₂.symm, Function.update_self]
    have hb₃ : (memExtendPoolInternal s start size mp).2.1.heap.blocksize
        (16 * ((start + size) / 16) - 48) = 48 := by
      rw [hblocks, Function.update_self]
    refine ⟨⟨⟨?_, ?_⟩, ⟨?_, ?_⟩, ⟨?_, ?_⟩⟩, ⟨?_, ?_, ?_⟩, ?_⟩ <;>
      simp only [BlocksApart, hb₁, hb₂, hb₃, hmin] <;> omega

/-- A pool without blocks, and no memory in use. -/
def emptyKernel : Kernel where
  heap := ⟨fun _ => 0, fun _ => 0, fun _ => 0, fun _ => 0, fun _ => 0, fun _ => 0, fun _ => 0,
    fun _ => 0⟩
  pools := fun _ => ⟨mempoolValid, 0, 0, 0, 0, 0, 0, 0, 0, 0, 0, 0, 0⟩
  memoryResourceList := fun _ => 0
  memCompValid := mempoolValid
  memCompPools := []
  kdPool := 0

/-- 176 bytes at an aligned address are enough. -/
theorem mem_extend_pool_aligned :
    ExtensionFits (memExtendPoolInternal emptyKernel 4096 176 0).2.1.heap 4096 176
      (extendLayout 4096 176) :=
  (mem_extend_pool (by norm_num) (by norm_num) (by decide)).mpr (by decide)

/-- 144 bytes at an aligned address are accepted and leave a free block of 16 bytes. -/
theorem mem_extend_pool_fails :
    (memExtendPoolInternal emptyKernel 4096 144 0).1 = .ok ∧
      ¬ ExtensionFits (memExtendPoolInternal emptyKernel 4096 144 0).2.1.heap 4096 144
        (extendLayout 4096 144) := by
  refine ⟨by decide, fun h => ?_⟩
  have hfree := h.minimal
  revert hfree
  decide

end Mqx.Mem
