import Mqx.Mem.Storeblock

/-!
# The allocator of `mem.c`

Allocation, release, partial release and ownership transfer. The two loops that
open a window for higher priority tasks, the search of `_mem_alloc_internal` and
the sorted insertion of `_mem_free`, are cut at the window: one definition runs
from the window to the next one or to the end of the call. A whole call without
interference iterates it.
-/

namespace Mqx.Mem

open PointerList

/-- What a stretch of code between two interrupt windows ends in: the next window,
with the loop pointer that is kept across it, or the end of the call. -/
inductive Progress (ρ : Type)
  | window (ptr : ℕ)
  | returned (result : ρ)
  deriving DecidableEq

/-- The effect of such a stretch. `reads` lists the loop pointers whose `NEXT_FREE`
or `BLOCKSIZE` the loop has dereferenced. -/
structure Stretch (ρ : Type) where
  kernel : Kernel
  progress : Progress ρ
  reads : List ℕ

/-! ## Allocation -/

/-- The head of the allocation functions: room for the header, at least the minimal
block, aligned. -/
def adjustSize (requestedSize : ℕ) : ℕ :=
  let size := add32 requestedSize userAreaOffset
  let size := if size < mqxMinMemoryStorageSize then mqxMinMemoryStorageSize else size
  memoryAlignValLarger size

namespace Kernel

/-- Remember the highest address handed out, for blocks of the main pool area. -/
def rememberHighest (s : Kernel) (mp block : ℕ) : Kernel :=
  let p := s.pools mp
  let next := s.heap.nextPhys block
  if p.poolHighestMemoryUsed < next ∧ p.poolPtr < next ∧ next < p.poolEndPtr then
    s.setPool mp { p with poolHighestMemoryUsed := next - 1 }
  else s

/-- Link the block onto the task descriptor. -/
def linkOntoTask (s : Kernel) (td mp block : ℕ) : Kernel :=
  { s with
    heap := { s.heap with
      nextblock := Function.update s.heap.nextblock block (s.memoryResourceList td)
      memPoolPtr := Function.update s.heap.memPoolPtr block mp }
    memoryResourceList := Function.update s.memoryResourceList td (userAreaPtr block) }

/-- `_mem_alloc_internal`: cut the rest off a block that is big enough to split. -/
def splitBlock (s : Kernel) (mp block requestedSize nextBlockSize : ℕ) : Kernel :=
  let next := add32 block requestedSize
  let h := s.heap
  let h := { h with
    blocksize := Function.update h.blocksize next nextBlockSize
    prevblock := Function.update h.prevblock next block
    taskNumber := Function.update h.taskNumber next 0 }
  let s := { s with heap := h.calcChecksum next }
  let s := s.setFreeList mp ((s.freeList mp).insertAfter 0 block next)
  let h := s.heap
  let nextNext := h.nextPhys next
  let h := { h with prevblock := Function.update h.prevblock nextNext next }
  { s with heap := h.calcChecksum nextNext }

/-- `_mem_alloc_internal`: the block gets its final size and owner, leaves the free
list, and the search pointers of preempted tasks are reset. -/
def takeBlock (s : Kernel) (td mp block size : ℕ) : Kernel :=
  let h := s.heap
  let h := { h with
    blocksize := Function.update h.blocksize block size
    taskNumber := Function.update h.taskNumber block td
    memType := Function.update h.memType block 0 }
  let s := { s with heap := h.calcChecksum block }
  let s := s.setFreeList mp ((s.freeList mp).unlink 0 block)
  let p := s.pools mp
  let s := s.setPool mp { p with
    poolFreeCurrentBlock :=
      if block = p.poolFreeCurrentBlock then p.poolFreeListPtr else p.poolFreeCurrentBlock
    poolFreeCheckBlock := p.poolFreeListPtr
    poolAllocCurrentBlock := p.poolFreeListPtr }
  (s.rememberHighest mp block).linkOntoTask td mp block

/-- `_mem_alloc_internal`: the request fits into this block. -/
def allocBlock (s : Kernel) (td mp block requestedSize : ℕ) : Kernel :=
  let blockSize := s.heap.blocksize block
  let nextBlockSize := sub32 blockSize requestedSize
  if 2 * mqxMinMemoryStorageSize ≤ nextBlockSize then
    (s.splitBlock mp block requestedSize nextBlockSize).takeBlock td mp block requestedSize
  else s.takeBlock td mp block blockSize

end Kernel

/-- Result of an allocation: the user pointer, 0 for `NULL`, and `*error_ptr`. -/
abbrev AllocResult := ℕ × MqxCode

def allocReturn (s : Kernel) (ptr : ℕ) (error : MqxCode) (reads : List ℕ) : Stretch AllocResult :=
  ⟨s, .returned (ptr, error), reads⟩

/-- The top of the search loop: save the current block pointer, open the window. -/
def memAllocWindow (s : Kernel) (mp blockPtr : ℕ) (reads : List ℕ) : Stretch AllocResult :=
  ⟨s.setPool mp { s.pools mp with poolAllocCurrentBlock := blockPtr }, .window blockPtr, reads⟩

/-- `_mem_alloc_internal` up to its first window. -/
def memAllocBegin (s : Kernel) (mp : ℕ) : Stretch AllocResult :=
  memAllocWindow s mp (s.pools mp).poolFreeListPtr []

/-- `_mem_alloc_internal` from a window to the next one; `requestedSize` is adjusted. -/
def memAllocResume (s : Kernel) (requestedSize td mp blockPtr : ℕ) : Stretch AllocResult :=
  let p := s.pools mp
  let blockPtr := if p.poolAllocCurrentBlock ≠ blockPtr then p.poolFreeListPtr else blockPtr
  let inError := s.setPool mp { p with poolBlockInError := blockPtr }
  if blockPtr = 0 then allocReturn inError 0 .outOfMemory []
  else if ¬MemoryAligned blockPtr ∨ ¬s.heap.BlockIsFree blockPtr then
    allocReturn inError 0 .corruptStoragePoolFreeList []
  else if ¬s.heap.ValidChecksum blockPtr then allocReturn inError 0 .invalidChecksum []
  else if requestedSize ≤ s.heap.blocksize blockPtr then
    if ¬MemoryAligned (userAreaPtr blockPtr) then
      allocReturn s 0 .invalidConfiguration [blockPtr]
    else
      allocReturn (s.allocBlock td mp blockPtr requestedSize) (userAreaPtr blockPtr) .ok [blockPtr]
  else memAllocWindow s mp (s.heap.nextblock blockPtr) [blockPtr]

/-- Iterate a search until it returns. -/
def searchRun (resume : Kernel → ℕ → Stretch AllocResult) :
    ℕ → Stretch AllocResult → Option (AllocResult × Kernel)
  | 0, _ => none
  | fuel + 1, t =>
    match t.progress with
    | .returned r => some (r, t.kernel)
    | .window b => searchRun resume fuel (resume t.kernel b)

/-- `_mem_alloc_internal` without interference; `none` when the search never ends. -/
def memAllocInternal (s : Kernel) (requestedSize td mp : ℕ) : Option (AllocResult × Kernel) :=
  searchRun (fun s b => memAllocResume s (adjustSize requestedSize) td mp b) maxSteps
    (memAllocBegin s mp)

/-! ## Coalescing -/

namespace Storeblocks

/-- `_mem_check_coalesce_internal`: add the block to its free left neighbour. -/
def joinPrev (h : Storeblocks) (block prev : ℕ) : Storeblocks :=
  let h := { h with
    nextblock := Function.update h.nextblock block 0
    taskNumber := Function.update h.taskNumber block 0 }
  let h := { h with
    blocksize := Function.update h.blocksize prev (add32 (h.blocksize prev) (h.blocksize block)) }
  let next := h.nextPhys block
  let h := { h with prevblock := Function.update h.prevblock next prev }
  (h.calcChecksum prev).calcChecksum next

/-- `_mem_check_coalesce_internal`: add the free right neighbour to the block. -/
def joinNext (h : Storeblocks) (block next : ℕ) : Storeblocks :=
  let h := { h with
    blocksize := Function.update h.blocksize block (add32 (h.blocksize block) (h.blocksize next)) }
  let nextNext := h.nextPhys next
  let h := { h with prevblock := Function.update h.prevblock nextNext block }
  (h.calcChecksum nextNext).calcChecksum block

end Storeblocks

namespace Kernel

/-- Make a block that is not on the free list a free block. -/
def markFree (s : Kernel) (block : ℕ) : Kernel :=
  { s with heap := { s.heap with
      nextblock := Function.update s.heap.nextblock block 0
      taskNumber := Function.update s.heap.taskNumber block 0 } }

/-- Reset the `_mem_test` pointers and the pointer of the sorted insertion. -/
def resetFreePointers (s : Kernel) (mp : ℕ) : Kernel :=
  let p := s.pools mp
  s.setPool mp { p with
    poolPhysicalCheckBlock := p.poolPtr
    poolFreeCheckBlock := p.poolFreeListPtr
    poolFreeCurrentBlock := p.poolFreeListPtr }

/-- The part of `_mem_check_coalesce_internal` that looks at the right neighbour.
`coalesced` tells whether `block` is a left neighbour that is on the free list. -/
def coalesceNext (s : Kernel) (mp block : ℕ) (coalesced : Bool) : Kernel × Bool :=
  let next := s.heap.nextPhys block
  if s.heap.BlockIsFree next then
    let p := s.pools mp
    let s := if p.poolAllocCurrentBlock = next then
        s.setPool mp { p with poolAllocCurrentBlock := block }
      else s
    let s := if coalesced then s.setFreeList mp ((s.freeList mp).unlink 0 block)
      else s.markFree block
    let s := s.setFreeList mp ((s.freeList mp).replace 0 next block)
    ({ s with heap := s.heap.joinNext block next }, true)
  else (s, coalesced)

/-- `_mem_check_coalesce_internal`. -/
def memCheckCoalesceInternal (s : Kernel) (block : ℕ) : Kernel × Bool :=
  let mp := s.heap.memPoolPtr block
  let prev := s.heap.prevblock block
  let r := if prev ≠ 0 ∧ s.heap.BlockIsFree prev then
      coalesceNext { s with heap := s.heap.joinPrev block prev } mp prev true
    else coalesceNext s mp block false
  if r.2 then (r.1.resetFreePointers mp, true) else r

end Kernel

/-! ## Release -/

/-- The walk along the `MEMORY_RESOURCE_LIST` of a task: the link that ends it and
the block before it, `none` for the task descriptor itself. -/
def resourceWalk (h : Storeblocks) (memPtr : ℕ) : ℕ → ℕ → Option ℕ → Option (ℕ × Option ℕ)
  | 0, _, _ => none
  | fuel + 1, next, prev =>
    if next ≠ 0 ∧ next ≠ memPtr then
      resourceWalk h memPtr fuel (h.nextblock (getMemblockPtr next)) (some (getMemblockPtr next))
    else some (next, prev)

/-- The task descriptor whose list is searched: the system's for system blocks, the
active task's otherwise. -/
def resourceOwner (s : Kernel) (active block : ℕ) : ℕ :=
  if s.heap.taskNumber block ≠ systemTaskNumber then active else systemTaskNumber

namespace Kernel

/-- Store the link that leads to the successor of a block on a resource list. -/
def setResourceLink (s : Kernel) (td : ℕ) (prev : Option ℕ) (link : ℕ) : Kernel :=
  match prev with
  | none => { s with memoryResourceList := Function.update s.memoryResourceList td link }
  | some p => { s with heap := { s.heap with
      nextblock := Function.update s.heap.nextblock p link } }

/-- `_mem_free`: put the block on the free list just before `next`. -/
def insertFree (s : Kernel) (mp block next : ℕ) : Kernel :=
  let s := s.markFree block
  let s := { s with heap := s.heap.calcChecksum block }
  let d := s.freeList mp
  let s := s.setFreeList mp
    (if next = d.head then d.insertHead 0 block
      else if next < block then d.insertEnd 0 next block
      else d.insertBefore next block)
  s.resetFreePointers mp

end Kernel

/-- `_mem_free`: the sorted insertion loop from its condition to the next window. -/
def memFreeLoop (s : Kernel) (mp block next : ℕ) : Stretch MqxCode :=
  if next < block then
    let n := s.heap.nextblock next
    if n = 0 then ⟨s.insertFree mp block next, .returned .ok, [next]⟩
    else ⟨s.setPool mp { s.pools mp with poolFreeCurrentBlock := n }, .window n, [next]⟩
  else ⟨s.insertFree mp block next, .returned .ok, []⟩

/-- `_mem_free` from a window to the next one. -/
def memFreeResume (s : Kernel) (mp block next : ℕ) : Stretch MqxCode :=
  let p := s.pools mp
  let next := if p.poolFreeCurrentBlock ≠ next then p.poolFreeListPtr else next
  let r := s.memCheckCoalesceInternal block
  if r.2 then ⟨r.1, .returned .ok, []⟩ else memFreeLoop r.1 mp block next

/-- `_mem_free` once the block is off the resource list. -/
def memFreeUnowned (s : Kernel) (mp block : ℕ) : Stretch MqxCode :=
  let s := { s with heap := { s.heap with memType := Function.update s.heap.memType block 0 } }
  let r := s.memCheckCoalesceInternal block
  if r.2 then ⟨r.1, .returned .ok, []⟩
  else
    let next := (r.1.pools mp).poolFreeListPtr
    if next ≠ 0 then memFreeLoop r.1 mp block next
    else ⟨r.1.insertFree mp block next, .returned .ok, []⟩

/-- `_mem_free` up to its first window; `none` when the resource list never ends. -/
def memFreeBegin (s : Kernel) (active memPtr : ℕ) : Option (Stretch MqxCode) :=
  let block := getMemblockPtr memPtr
  if memPtr = 0 then some ⟨s, .returned .invalidPointer, []⟩
  else if ¬MemoryAligned block ∨ s.heap.blocksize block < mqxMinMemoryStorageSize ∨
      s.heap.BlockIsFree block then
    some ⟨s, .returned .invalidPointer, []⟩
  else if ¬s.heap.ValidChecksum block then some ⟨s, .returned .invalidChecksum, []⟩
  else
    let td := resourceOwner s active block
    match resourceWalk s.heap memPtr maxSteps (s.memoryResourceList td) none with
    | none => none
    | some (next, prev) =>
      if next = 0 then some ⟨s, .returned .notResourceOwner, []⟩
      else
        some (memFreeUnowned (s.setResourceLink td prev (s.heap.nextblock block))
          (s.heap.memPoolPtr block) block)

/-- Iterate the insertion loop until it returns. -/
def memFreeRun (mp block : ℕ) : ℕ → Stretch MqxCode → Option (MqxCode × Kernel)
  | 0, _ => none
  | fuel + 1, t =>
    match t.progress with
    | .returned r => some (r, t.kernel)
    | .window n => memFreeRun mp block fuel (memFreeResume t.kernel mp block n)

/-- `_mem_free` without interference. -/
def memFree (s : Kernel) (active memPtr : ℕ) : Option (MqxCode × Kernel) :=
  let block := getMemblockPtr memPtr
  (memFreeBegin s active memPtr).bind (memFreeRun (s.heap.memPoolPtr block) block maxSteps)

namespace Kernel

/-- `_mem_free_part`: cut an in-use block of the rest off a block and link it onto the
task descriptor. -/
def splitUsed (s : Kernel) (td block size newBlockSize : ℕ) : Kernel :=
  let new := add32 block size
  let h := s.heap
  let h := { h with
    blocksize := Function.update h.blocksize new newBlockSize
    prevblock := Function.update h.prevblock new block
    taskNumber := Function.update h.taskNumber new (h.taskNumber block)
    memPoolPtr := Function.update h.memPoolPtr new (h.memPoolPtr block) }
  let h := h.calcChecksum new
  let h := { h with blocksize := Function.update h.blocksize block size }
  let h := h.calcChecksum block
  let next := h.nextPhys new
  let h := { h with prevblock := Function.update h.prevblock next new }
  let h := h.calcChecksum next
  { s with
    heap := { h with nextblock := Function.update h.nextblock new (s.memoryResourceList td) }
    memoryResourceList := Function.update s.memoryResourceList td (userAreaPtr new) }

/-- Store `KD_POOL.POOL_BLOCK_IN_ERROR`. -/
def kdPoolBlockInError (s : Kernel) (block : ℕ) : Kernel :=
  s.setPool s.kdPool { s.pools s.kdPool with poolBlockInError := block }

end Kernel

/-- `_mem_free_part`. -/
def memFreePart (s : Kernel) (active memPtr requestedSize : ℕ) : Option (MqxCode × Kernel) :=
  let block := getMemblockPtr memPtr
  if memPtr = 0 then some (.invalidPointer, s)
  else if ¬MemoryAligned block then some (.invalidPointer, s)
  else if s.heap.blocksize block < mqxMinMemoryStorageSize ∨ s.heap.BlockIsFree block then
    some (.invalidPointer, s.kdPoolBlockInError block)
  else if ¬s.heap.ValidChecksum block then some (.invalidChecksum, s.kdPoolBlockInError block)
  else
    let td := resourceOwner s active block
    match resourceWalk s.heap memPtr maxSteps (s.memoryResourceList td) none with
    | none => none
    | some (next, _) =>
      if next = 0 then some (.notResourceOwner, s)
      else
        let blockSize := s.heap.blocksize block
        let size := adjustSize requestedSize
        if size ≤ blockSize then
          let newBlockSize := blockSize - size
          if 2 * mqxMinMemoryStorageSize ≤ newBlockSize then
            memFree (s.splitUsed td block size newBlockSize) active
              (userAreaPtr (add32 block size))
          else some (.invalidSize, s)
        else some (.invalidSize, s)

/-! ## Transfer -/

/-- `_mem_transfer_internal`. -/
def memTransferInternal (s : Kernel) (memPtr target : ℕ) : Kernel :=
  let block := getMemblockPtr memPtr
  let h := { s.heap with
    nextblock := Function.update s.heap.nextblock block (s.memoryResourceList target)
    taskNumber := Function.update s.heap.taskNumber block target }
  { s with
    heap := h.calcChecksum block
    memoryResourceList := Function.update s.memoryResourceList target (userAreaPtr block) }

/-- `_mem_transfer_td_internal`. -/
def memTransferTdInternal (s : Kernel) (memPtr source target : ℕ) : Option (MqxCode × Kernel) :=
  let block := getMemblockPtr memPtr
  let next := s.memoryResourceList source
  if memPtr = next then
    some (.ok, memTransferInternal (s.setResourceLink source none (s.heap.nextblock block))
      memPtr target)
  else
    match resourceWalk s.heap memPtr maxSteps next none with
    | none => none
    | some (next, prev) =>
      if next = 0 then some (.notResourceOwner, s)
      else some (.ok, memTransferInternal (s.setResourceLink source prev (s.heap.nextblock block))
        memPtr target)

/-! ## Creation -/

/-- `_mem_create_pool_internal`. The queue of pools is kept as a list. -/
def memCreatePoolInternal (s : Kernel) (start end_ mp : ℕ) : MqxCode × Kernel :=
  if s.memCompValid ≠ mempoolValid then (.corruptMemorySystem, s)
  else
    let p := { s.pools mp with
      poolPtr := memoryAlignValLarger start
      poolLimit := alignAddrToLowerMem end_ }
    if p.poolLimit ≤ add32 p.poolPtr mqxMinMemoryPoolSize then (.memPoolTooSmall, s.setPool mp p)
    else
      let block := p.poolPtr
      let p := { p with
        poolHighestMemoryUsed := block
        poolCheckPoolPtr := p.poolPtr
        poolBlockInError := 0
        poolSize := sub32 p.poolLimit p.poolPtr }
      let h := s.heap
      let h := { h with
        blocksize := Function.update h.blocksize block (sub32 p.poolSize mqxMinMemoryStorageSize)
        userArea := Function.update h.userArea block 0
        prevblock := Function.update h.prevblock block 0
        nextblock := Function.update h.nextblock block 0
        taskNumber := Function.update h.taskNumber block 0 }
      let h := h.calcChecksum block
      let endBlock := h.nextPhys block
      let h := { h with
        blocksize := Function.update h.blocksize endBlock mqxMinMemoryStorageSize
        userArea := Function.update h.userArea endBlock 0
        prevblock := Function.update h.prevblock endBlock block
        nextblock := Function.update h.nextblock endBlock 0
        taskNumber := Function.update h.taskNumber endBlock systemTaskNumber }
      let h := h.calcChecksum endBlock
      let p := { p with poolFreeListPtr := block, poolEndPtr := endBlock, valid := mempoolValid }
      (.ok, { s.setPool mp p with heap := h, memCompPools := s.memCompPools ++ [mp] })

end Mqx.Mem
