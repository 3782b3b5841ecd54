import Mqx.Mem.AllocAlign

/-!
# The lightweight allocator of `lwmem.c`

Blocks have a header of three words: the size, the pool, and a word that is the link of the
free list while the block is free and holds the owner and the type while it is in use. The
loops of the three allocation functions and of `_lwmem_free` open a window for higher priority
tasks; as for `mem.c`, one definition runs from a window to the next one or to the end of the
call, and a whole call without interference iterates it.

The contents of the user areas are not modelled, so neither is the parameter `zero`.
-/

namespace Mqx.Lwmem

open Function (update)
open Mem (alignDown adjustAlign)

/-- `sizeof(LWMEM_BLOCK_STRUCT)`. -/
def sizeofLwmemBlock : ℕ := 12

/-- `LWMEM_MIN_MEMORY_STORAGE_SIZE`. -/
def lwmemMinMemoryStorageSize : ℕ := alignAddrToLowerMem (sizeofLwmemBlock + pspMemoryAlignment)

example : lwmemMinMemoryStorageSize = 16 := by decide

/-- `LWMEM_POOL_VALID`. -/
def lwmemPoolValid : ℕ := 0x6C6D6570

/-- The fields of `LWMEM_BLOCK_STRUCT`, each as a map from block addresses. The union `U` is one
word: `NEXTBLOCK`, or `TASK_NUMBER` in its low half and `MEM_TYPE` in its high half. -/
structure Blocks where
  blocksize : ℕ → ℕ
  pool : ℕ → ℕ
  u : ℕ → ℕ

/-- The fields of `LWMEM_POOL_STRUCT` without its link. -/
structure Pool where
  valid : ℕ
  poolAllocStartPtr : ℕ
  poolAllocEndPtr : ℕ
  poolFreeListPtr : ℕ
  poolAllocPtr : ℕ
  poolFreePtr : ℕ
  poolTestPtr : ℕ
  poolTest2Ptr : ℕ
  poolDestroyPtr : ℕ
  highwater : ℕ

/-- The block headers, and the pools by their address. -/
structure State where
  heap : Blocks
  pools : ℕ → Pool

/-- `GET_LWMEMBLOCK_PTR`. -/
def getLwmemblockPtr (addr : ℕ) : ℕ := sub32 addr sizeofLwmemBlock

/-- The pointer that the user gets. -/
def userPtr (block : ℕ) : ℕ := add32 block sizeofLwmemBlock

namespace Blocks

variable (h : Blocks)

/-- `U.S.TASK_NUMBER`. -/
def taskNumber (block : ℕ) : ℕ := h.u block % 2 ^ 16

/-- `_mem_zero` of a header. -/
def zero (block : ℕ) : Blocks where
  blocksize := update h.blocksize block 0
  pool := update h.pool block 0
  u := update h.u block 0

end Blocks

/-- The head of the allocation functions: room for the header, at least the minimal block,
aligned. -/
def adjustSize (requestedSize : ℕ) : ℕ :=
  let size := add32 requestedSize sizeofLwmemBlock
  let size := if size < lwmemMinMemoryStorageSize then lwmemMinMemoryStorageSize else size
  memoryAlignValLarger size

namespace State

variable (s : State)

/-- Store to fields of a pool. -/
def setPool (mp : ℕ) (p : Pool) : State := { s with pools := update s.pools mp p }

/-- `U.NEXTBLOCK = next`. -/
def setNext (block next : ℕ) : State := { s with heap := { s.heap with u := update s.heap.u block next } }

/-- `BLOCKSIZE = size`. -/
def setSize (block size : ℕ) : State :=
  { s with heap := { s.heap with blocksize := update s.heap.blocksize block size } }

/-- The end of every call: the walks of other tasks start again. -/
def resetPointers (mp : ℕ) : State :=
  let p := s.pools mp
  s.setPool mp { p with
    poolAllocPtr := p.poolFreeListPtr
    poolFreePtr := p.poolFreeListPtr
    poolTestPtr := p.poolFreeListPtr
    poolTest2Ptr := p.poolAllocStartPtr
    poolDestroyPtr := p.poolAllocStartPtr }

/-- The header of the rest of a block. -/
def addRest (mp next size link : ℕ) : State :=
  { s with heap :=
    { blocksize := update s.heap.blocksize next size
      pool := update s.heap.pool next mp
      u := update s.heap.u next link } }

/-- The free list goes on with `next` where it had `block`. -/
def unlink (mp block prev next : ℕ) : State :=
  let p := s.pools mp
  if block = p.poolFreeListPtr then s.setPool mp { p with poolFreeListPtr := next }
  else s.setNext prev next

/-- Indicate that the block is in use. -/
def markUsed (td mp block : ℕ) : State :=
  { s with heap := { s.heap with
      u := update s.heap.u block td
      pool := update s.heap.pool block mp } }

/-- Indicate the highest memory address used, as the end of `block`. -/
def rememberHighwater (mp block : ℕ) : State :=
  let p := s.pools mp
  let highwater := sub32 (add32 block (s.heap.blocksize block)) 1
  if p.highwater < highwater then s.setPool mp { p with highwater := highwater } else s

/-! ## Allocation -/

/-- `_lwmem_alloc_internal`: the request fits into this block. -/
def allocBlock (td mp block prev requestedSize : ℕ) : State :=
  let nextBlockSize := sub32 (s.heap.blocksize block) requestedSize
  if lwmemMinMemoryStorageSize ≤ nextBlockSize then
    let next := add32 block requestedSize
    let s := (s.addRest mp next nextBlockSize (s.heap.u block)).setSize block requestedSize
    ((s.unlink mp block prev next).markUsed td mp block).rememberHighwater mp block
  else
    ((s.unlink mp block prev (s.heap.u block)).markUsed td mp block).rememberHighwater mp block

/-- `_lwmem_alloc_at_internal`: the request fits into this block. -/
def allocBlockAt (td mp block requestedAddr requestedSize : ℕ) : State :=
  let requested := getLwmemblockPtr requestedAddr
  let freeBlockSize := sub32 requested block
  let nextBlockSize := sub32 (sub32 (s.heap.blocksize block) requestedSize) freeBlockSize
  let s := s.setSize block freeBlockSize
  let s := if lwmemMinMemoryStorageSize ≤ nextBlockSize then
      let next := add32 requested requestedSize
      ((s.addRest mp next nextBlockSize (s.heap.u block)).setNext block next).setSize requested
        requestedSize
    else s.setSize requested (add32 requestedSize nextBlockSize)
  (s.markUsed td mp requested).rememberHighwater mp block

end State

/-- `_lwmem_alloc_align_internal`: the distance from a free block to the block that is cut out
of it. -/
def alignShift (reqAlign block : ℕ) : ℕ :=
  let user := userPtr block
  let shift := sub32 (alignDown (add32 user reqAlign) reqAlign) user
  if shift < 2 * lwmemMinMemoryStorageSize then
    sub32 (alignDown (add32 (add32 user (3 * lwmemMinMemoryStorageSize)) reqAlign) reqAlign) user
  else shift

namespace State

variable (s : State)

/-- `_lwmem_alloc_align_internal`: the request fits behind the start of this block. -/
def allocBlockAlign (td mp free requestedSize reqAlign : ℕ) : State :=
  let shift := alignShift reqAlign free
  let block := add32 free shift
  let blockSize := sub32 (s.heap.blocksize free) shift
  let s := (s.setSize free shift).setNext block (s.heap.u free)
  let nextBlockSize := sub32 blockSize requestedSize
  if lwmemMinMemoryStorageSize ≤ nextBlockSize then
    let next := add32 block requestedSize
    let s := ((s.addRest mp next nextBlockSize (s.heap.u block)).setNext block next).setSize block
      requestedSize
    ((s.unlink mp block free next).markUsed td mp block).rememberHighwater mp block
  else
    let s := s.setSize block blockSize
    ((s.unlink mp block free (s.heap.u block)).markUsed td mp block).rememberHighwater mp block

end State

/-- What a stretch of code between two windows ends in: the next window with the loop pointers
that are kept across it, or the end of the call. -/
inductive Progress (ρ : Type)
  | window (block prev : ℕ)
  | returned (result : ρ)
deriving DecidableEq

/-- Result of an allocation: the user pointer, 0 for `NULL`, and the task error code. -/
abbrev AllocResult := ℕ × MqxCode

/-- What the allocation functions differ in: whether the request fits into a free block, and
what is done then, given the block and the one before it. -/
structure Request where
  fits : State → ℕ → Prop
  decFits : ∀ s b, Decidable (fits s b)
  take : State → ℕ → ℕ → State
  ptr : ℕ → ℕ

instance (r : Request) (s : State) (b : ℕ) : Decidable (r.fits s b) := r.decFits s b

/-- The request of `_lwmem_alloc_internal`; `requestedSize` is adjusted. -/
def allocRequest (requestedSize td mp : ℕ) : Request where
  fits s block := requestedSize ≤ s.heap.blocksize block
  decFits _ _ := inferInstance
  take s block prev := s.allocBlock td mp block prev requestedSize
  ptr := userPtr

/-- The request of `_lwmem_alloc_at_internal`. -/
def allocAtRequest (requestedSize requestedAddr td mp : ℕ) : Request where
  fits s block :=
    add32 block lwmemMinMemoryStorageSize ≤ getLwmemblockPtr requestedAddr ∧
      add32 (getLwmemblockPtr requestedAddr) requestedSize ≤ add32 block (s.heap.blocksize block)
  decFits _ _ := inferInstance
  take s block _ := s.allocBlockAt td mp block requestedAddr requestedSize
  ptr _ := requestedAddr

/-- The request of `_lwmem_alloc_align_internal`. -/
def allocAlignRequest (requestedSize reqAlign td mp : ℕ) : Request where
  fits s block := add32 requestedSize (alignShift reqAlign block) ≤ s.heap.blocksize block
  decFits _ _ := inferInstance
  take s block _ := s.allocBlockAlign td mp block requestedSize reqAlign
  ptr block := userPtr (add32 block (alignShift reqAlign block))

/-- The end of an allocation. -/
def allocReturn (s : State) (mp : ℕ) (r : AllocResult) : State × Progress AllocResult :=
  (s.resetPointers mp, .returned r)

/-- The loop condition and the top of the loop: save the current block, open the window. -/
def allocWindow (s : State) (mp block prev : ℕ) : State × Progress AllocResult :=
  if block = 0 then allocReturn s mp (0, .outOfMemory)
  else (s.setPool mp { s.pools mp with poolAllocPtr := block }, .window block prev)

/-- The search from a window to the next one. -/
def allocResume (r : Request) (s : State) (mp block prev : ℕ) : State × Progress AllocResult :=
  let p := s.pools mp
  let moved := block ≠ p.poolAllocPtr
  let prev := if moved then p.poolFreeListPtr else prev
  let block := if moved then p.poolFreeListPtr else block
  if block = 0 then allocReturn s mp (0, .outOfMemory)
  else if r.fits s block then allocReturn (r.take s block prev) mp (r.ptr block, .ok)
  else allocWindow s mp (s.heap.u block) block

/-- Iterate the search until it returns. -/
def allocRun (r : Request) (mp : ℕ) :
    ℕ → State × Progress AllocResult → Option (AllocResult × State)
  | 0, _ => none
  | fuel + 1, t =>
    match t.2 with
    | .returned a => some (a, t.1)
    | .window block prev => allocRun r mp fuel (allocResume r t.1 mp block prev)

/-- The check of the pool and the search without interference; `none` when the search never
ends. -/
def alloc (r : Request) (s : State) (mp : ℕ) : Option (AllocResult × State) :=
  if (s.pools mp).valid ≠ lwmemPoolValid then some ((0, .lwmemPoolInvalid), s)
  else
    let first := (s.pools mp).poolFreeListPtr
    allocRun r mp maxSteps (allocWindow s mp first first)

/-- `_lwmem_alloc_internal`. -/
def lwmemAllocInternal (s : State) (requestedSize td mp : ℕ) : Option (AllocResult × State) :=
  alloc (allocRequest (adjustSize requestedSize) td mp) s mp

/-- `_lwmem_alloc_at_internal`. -/
def lwmemAllocAtInternal (s : State) (requestedSize requestedAddr td mp : ℕ) :
    Option (AllocResult × State) :=
  alloc (allocAtRequest (adjustSize requestedSize) requestedAddr td mp) s mp

/-- `_lwmem_alloc_align_internal`. -/
def lwmemAllocAlignInternal (s : State) (requestedSize reqAlign td mp : ℕ) :
    Option (AllocResult × State) :=
  let requestedSize := max requestedSize lwmemMinMemoryStorageSize
  if reqAlign ≠ 0 ∧ reqAlign &&& (reqAlign - 1) ≠ 0 then some ((0, .invalidParameter), s)
  else
    alloc (allocAlignRequest (adjustSize requestedSize) (adjustAlign reqAlign) td mp) s mp

/-- `_lwmem_get_size`: the size and the task error code. -/
def lwmemGetSize (s : State) (memPtr : ℕ) : ℕ × MqxCode :=
  let size := s.heap.blocksize (getLwmemblockPtr memPtr)
  if memPtr = 0 then (0, .invalidPointer)
  else if size ≤ sizeofLwmemBlock then (0, .invalidPointer)
  else (sub32 size sizeofLwmemBlock, .ok)

/-! ## Release -/

namespace State

variable (s : State)

/-- `_lwmem_free`: join the block with the free block `next`, whose header is cleared, or link
it before that block. -/
def joinNext (block next : ℕ) : State :=
  let h := s.heap
  if add32 block (h.blocksize block) = next then
    let h := { h with
      blocksize := update h.blocksize block (add32 (h.blocksize block) (h.blocksize next))
      u := update h.u block (h.u next) }
    { s with heap := h.zero next }
  else s.setNext block next

/-- `_lwmem_free`: join the block with the free block before it, or link it behind that block. -/
def joinPrev (prev block : ℕ) : State :=
  let h := s.heap
  if add32 prev (h.blocksize prev) = block then
    let h := { h with
      blocksize := update h.blocksize prev (add32 (h.blocksize prev) (h.blocksize block))
      u := update h.u prev (h.u block) }
    { s with heap := h.zero block }
  else s.setNext prev block

/-- `_lwmem_free` at the beginning of the free list. -/
def insertFirst (mp block : ℕ) : State :=
  let s := s.joinNext block (s.pools mp).poolFreeListPtr
  s.setPool mp { s.pools mp with poolFreeListPtr := block }

/-- `_lwmem_free` between `prev` and its successor. -/
def insertAfter (prev block : ℕ) : State :=
  (s.joinNext block (s.heap.u prev)).joinPrev prev block

end State

/-- The insertion loop of `_lwmem_free` from its head to the next window. -/
def freeLoop (s : State) (mp block free : ℕ) : State × Progress MqxCode :=
  let first := (s.pools mp).poolFreeListPtr
  if first = 0 ∨ block < first then ((s.insertFirst mp block).resetPointers mp, .returned .ok)
  else
    let next := s.heap.u free
    if block < next ∨ next = 0 then ((s.insertAfter free block).resetPointers mp, .returned .ok)
    else (s.setPool mp { s.pools mp with poolFreePtr := next }, .window next 0)

/-- `_lwmem_free` from a window to the next one. -/
def freeResume (s : State) (mp block free : ℕ) : State × Progress MqxCode :=
  let p := s.pools mp
  freeLoop s mp block (if free ≠ p.poolFreePtr then p.poolFreeListPtr else free)

/-- Iterate the insertion loop until it returns. -/
def freeRun (mp block : ℕ) : ℕ → State × Progress MqxCode → Option (MqxCode × State)
  | 0, _ => none
  | fuel + 1, t =>
    match t.2 with
    | .returned r => some (r, t.1)
    | .window free _ => freeRun mp block fuel (freeResume t.1 mp block free)

/-- `_lwmem_free` without interference, called by the task with number `active`. -/
def lwmemFree (s : State) (active memPtr : ℕ) : Option (MqxCode × State) :=
  if memPtr = 0 then some (.invalidPointer, s)
  else
    let block := getLwmemblockPtr memPtr
    let mp := s.heap.pool block
    if (s.pools mp).valid ≠ lwmemPoolValid then some (.lwmemPoolInvalid, s)
    else if s.heap.taskNumber block ≠ active ∧ s.heap.taskNumber block ≠ systemTaskNumber then
      some (.notResourceOwner, s)
    else freeRun mp block maxSteps (freeLoop s mp block (s.pools mp).poolFreeListPtr)

/-! ## Creation -/

/-- `_lwmem_create_pool`. -/
def lwmemCreatePool (s : State) (mp start size : ℕ) : State :=
  let end_ := alignAddrToLowerMem (add32 start size)
  let block := memoryAlignValLarger start
  let p := s.pools mp
  { heap :=
      { blocksize := update s.heap.blocksize block (sub32 end_ block)
        pool := update s.heap.pool block mp
        u := update s.heap.u block 0 }
    pools := update s.pools mp { p with
      valid := lwmemPoolValid
      poolAllocStartPtr := block
      poolAllocEndPtr := end_
      highwater := block
      poolFreeListPtr := block
      poolAllocPtr := block
      poolFreePtr := block
      poolTestPtr := block } }

end Mqx.Lwmem
