import Mqx.Library.DList
import Mqx.Library.Tiling

/-!
# Storage blocks and memory pools

The data model of the variable-size memory manager, `mem_prv.h` and the head of
`mem.c`, for the Kinetis port: pointers and `_mem_size` are 32 bits wide, the
cache line is 16 bytes, and `MQX_CHECK_ERRORS`, `MQX_CHECK_VALIDITY`,
`MQX_ALLOW_TYPED_MEMORY` and `MQX_MEMORY_FREE_LIST_SORTED` have their default
value 1.

Memory is kept field by field: one map from block addresses to values for every
field of `STOREBLOCK_STRUCT`. Headers of distinct blocks never overlap, so a
store to one field of a block is an update of one map at one address. Kernel
logging and the task error code are not modelled; every function returns the
code it would store there.
-/

namespace Mqx

/-- The result codes of the memory components. -/
inductive MqxCode
  | ok
  | invalidPointer
  | invalidChecksum
  | notResourceOwner
  | invalidSize
  | outOfMemory
  | corruptStoragePool
  | corruptStoragePoolFreeList
  | invalidConfiguration
  | invalidParameter
  | corruptMemorySystem
  | memPoolTooSmall
  | lwmemPoolInvalid
  deriving DecidableEq, Repr

/-- Unsigned 32-bit addition, of sizes and of addresses. -/
def add32 (a b : ℕ) : ℕ := (a + b) % 2 ^ 32

/-- Unsigned 32-bit subtraction. -/
def sub32 (a b : ℕ) : ℕ := (a + 2 ^ 32 - b) % 2 ^ 32

/-- `PSP_CACHE_LINE_SIZE`. -/
def pspCacheLineSize : ℕ := 16

/-- `PSP_MEMORY_ALIGNMENT`, the mask of the bits below the cache line. -/
def pspMemoryAlignment : ℕ := pspCacheLineSize - 1

/-- `_ALIGN_ADDR_TO_LOWER_MEM`: the bits of the mask are cleared. -/
def alignAddrToLowerMem (p : ℕ) : ℕ := p - p % pspCacheLineSize

/-- `_MEMORY_ALIGN_VAL_LARGER` and `_ALIGN_ADDR_TO_HIGHER_MEM`. -/
def memoryAlignValLarger (v : ℕ) : ℕ := alignAddrToLowerMem (add32 v pspMemoryAlignment)

/-- `_MEMORY_ALIGNED`. -/
def MemoryAligned (p : ℕ) : Prop := p % pspCacheLineSize = 0

instance : DecidablePred MemoryAligned := fun _ => inferInstanceAs (Decidable (_ = _))

/-- `SYSTEM_TASK_NUMBER`. A task descriptor is named by its task number. -/
def systemTaskNumber : ℕ := 0xffff

/-- A walk along pointers that has not ended after as many steps as there are
addresses has come back to a node and never ends. -/
def maxSteps : ℕ := 2 ^ 32

namespace Mem

open PointerList

/-- `FIELD_OFFSET(STOREBLOCK_STRUCT, USER_AREA)`. -/
def userAreaOffset : ℕ := 32

/-- `sizeof(STOREBLOCK_STRUCT)`. -/
def sizeofStoreblock : ℕ := 36

/-- `MQX_MIN_MEMORY_STORAGE_SIZE`. -/
def mqxMinMemoryStorageSize : ℕ := memoryAlignValLarger sizeofStoreblock

example : mqxMinMemoryStorageSize = 48 := by decide

/-- `MQX_MIN_MEMORY_POOL_SIZE`. -/
def mqxMinMemoryPoolSize : ℕ := 256

/-- `MEMPOOL_VALID`. -/
def mempoolValid : ℕ := 0x6D656D70

/-- The fields of `STOREBLOCK_STRUCT`, each as a map from block addresses. -/
structure Storeblocks where
  taskNumber : ℕ → ℕ
  memType : ℕ → ℕ
  blocksize : ℕ → ℕ
  memPoolPtr : ℕ → ℕ
  nextblock : ℕ → ℕ
  prevblock : ℕ → ℕ
  checksum : ℕ → ℕ
  userArea : ℕ → ℕ

/-- The fields of `MEMPOOL_STRUCT` that the allocator reads or writes. -/
structure Mempool where
  valid : ℕ
  poolSize : ℕ
  poolCheckPoolPtr : ℕ
  poolPtr : ℕ
  poolLimit : ℕ
  poolHighestMemoryUsed : ℕ
  poolAllocCurrentBlock : ℕ
  poolPhysicalCheckBlock : ℕ
  poolFreeCheckBlock : ℕ
  poolFreeCurrentBlock : ℕ
  poolBlockInError : ℕ
  poolFreeListPtr : ℕ
  poolEndPtr : ℕ

/-- The memory component of the kernel: block headers, pools by their address, and
the `MEMORY_RESOURCE_LIST` of every task descriptor. -/
structure Kernel where
  heap : Storeblocks
  pools : ℕ → Mempool
  memoryResourceList : ℕ → ℕ
  memCompValid : ℕ
  memCompPools : List ℕ
  kdPool : ℕ

/-- `GET_MEMBLOCK_PTR`. -/
def getMemblockPtr (addr : ℕ) : ℕ := sub32 addr userAreaOffset

/-- `&block->USER_AREA`. -/
def userAreaPtr (block : ℕ) : ℕ := add32 block userAreaOffset

namespace Storeblocks

variable (h : Storeblocks)

/-- `NEXT_PHYS`. -/
def nextPhys (block : ℕ) : ℕ := add32 block (h.blocksize block)

/-- The sum that `CALC_CHECKSUM` stores and `VALID_CHECKSUM` compares. -/
def headerSum (block : ℕ) : ℕ :=
  (h.blocksize block + h.prevblock block + h.taskNumber block + h.memType block) % 2 ^ 32

/-- `CALC_CHECKSUM`. -/
def calcChecksum (block : ℕ) : Storeblocks :=
  { h with checksum := Function.update h.checksum block (h.headerSum block) }

/-- `VALID_CHECKSUM`. -/
def ValidChecksum (block : ℕ) : Prop := h.checksum block = h.headerSum block

instance (block : ℕ) : Decidable (h.ValidChecksum block) := inferInstanceAs (Decidable (_ = _))

/-- `BLOCK_IS_FREE`. -/
def BlockIsFree (block : ℕ) : Prop := h.taskNumber block = 0

instance (block : ℕ) : Decidable (h.BlockIsFree block) := inferInstanceAs (Decidable (_ = _))

end Storeblocks

namespace Kernel

variable (s : Kernel)

/-- Store to fields of a pool. -/
def setPool (mp : ℕ) (p : Mempool) : Kernel := { s with pools := Function.update s.pools mp p }

/-- The free list of a pool: `NEXT_FREE` is `NEXTBLOCK`, `PREV_FREE` is `USER_AREA`. -/
def freeList (mp : ℕ) : DList ℕ :=
  ⟨(s.pools mp).poolFreeListPtr, s.heap.nextblock, s.heap.userArea⟩

/-- Store the head pointer and the links of a free list. -/
def setFreeList (mp : ℕ) (d : DList ℕ) : Kernel :=
  { s with
    heap := { s.heap with nextblock := d.next, userArea := d.prev }
    pools := Function.update s.pools mp { s.pools mp with poolFreeListPtr := d.head } }

end Kernel
end Mem
end Mqx
