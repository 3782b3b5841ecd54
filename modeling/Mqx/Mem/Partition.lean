import Mathlib.Algebra.Order.Ring.Nat
import Mathlib.Data.Finset.Basic
import Mathlib.Data.Finset.Insert
import Mathlib.Tactic.Common
import Mqx.Library.Linked
import Mqx.Mem.Storeblock

/-!
# Partitions

Model of `partition.c`: fixed-size blocks, kept on one free list for each partition, and their
growth. Interrupts are enabled inside `_partition_alloc_internal` and `_partition_extend` while
a partition grows, so that a growth is a state of its own, which other tasks run between two
steps of. Everything else is done with interrupts disabled and is one step.

Headers are kept in maps from their addresses. The areas behind `NEXT_POOL_PTR` are a list,
newest first. `TEST_FREE_PTR` only carries the test over an interrupt and is left out.
-/

namespace Mqx.Mem.Partition

open Function (update)

/-- `PARTITION_VALID`, "part". -/
def partitionValid : ℕ := 0x70617274

/-- `sizeof(PARTPOOL_BLOCK_STRUCT)`. -/
def sizeofPartpoolBlock : ℕ := 16

/-- `sizeof(INTERNAL_PARTITION_BLOCK_STRUCT)`. -/
def sizeofIblock : ℕ := 12

/-- The result codes of the component. -/
inductive PartitionCode
  | ok
  | partitionInvalid
  | invalidParameter
  | blockInvalidChecksum
  | outOfBlocks
  | notResourceOwner
  | invalidTaskId
deriving DecidableEq

/-- `INTERNAL_PARTITION_BLOCK_STRUCT`. `LINK` is the next free block or the partition. -/
structure Iblock where
  link : ℕ
  checksum : ℕ
  taskId : ℕ
deriving DecidableEq

/-- `CALC_PARTITION_CHECKSUM`. -/
def Iblock.calcChecksum (b : Iblock) : Iblock := { b with checksum := add32 b.link b.taskId }

/-- `VALID_PARTITION_CHECKSUM`. -/
def Iblock.validChecksum (b : Iblock) : Bool := b.checksum == add32 b.link b.taskId

/-- `PARTPOOL_BLOCK_STRUCT`, the head of an area of blocks. -/
structure PartpoolBlock where
  valid : ℕ
  numberOfBlocks : ℕ
  firstIblock : ℕ
deriving DecidableEq

/-- `PARTITION_DYNAMIC` and `PARTITION_STATIC`. -/
inductive PartitionType
  | dynamic
  | static
deriving DecidableEq

/-- `PARTPOOL_STRUCT`; `extensions` are the areas behind `POOL`. -/
structure Partpool where
  blockSize : ℕ
  available : ℕ
  freeList : ℕ
  totalBlocks : ℕ
  maxBlocksUsed : ℕ
  growBlocks : ℕ
  maximumBlocks : ℕ
  partitionType : PartitionType
  pool : PartpoolBlock
  extensions : List PartpoolBlock

/-- How far a task has come inside a growth of partition `p`. A growth inside an allocation
carries the owner of the block that is wanted; `total` is `TOTAL_BLOCKS` as it has been loaded
and will be stored back changed. -/
inductive Growth
  | allocating (p n owner : ℕ)
  | rollingBack (p n owner total : ℕ)
  | extending (p n location total : ℕ)
  | adding (p : ℕ) (area : PartpoolBlock) (block left : ℕ) (owner : Option ℕ)
  | retry (p owner : ℕ)
deriving DecidableEq

/-- The component: its partitions, the headers, what the tasks are doing and which of them are
alive. `made p` are the blocks that partition `p` has been given so far. -/
structure State where
  partitions : List ℕ
  partpool : ℕ → Partpool
  block : ℕ → Iblock
  growing : ℕ → Option Growth
  tasks : Finset ℕ
  systemTaskId : ℕ
  made : ℕ → List ℕ

/-- `n` blocks from `b` on. -/
def blocksFrom (size : ℕ) : ℕ → ℕ → List ℕ
  | 0, _ => []
  | n + 1, b => b :: blocksFrom size n (add32 b size)

/-- `FIRST_IBLOCK_PTR` of the area at `a`. -/
def firstIblockOf (a : ℕ) : ℕ := memoryAlignValLarger (add32 a sizeofPartpoolBlock)

namespace Partpool

/-- All areas of a partition, in the order of their list. -/
def areas (q : Partpool) : List PartpoolBlock := q.pool :: q.extensions

/-- The blocks of an area. -/
def iblocks (q : Partpool) (area : PartpoolBlock) : List ℕ :=
  blocksFrom q.blockSize area.numberOfBlocks area.firstIblock

/-- The test before an attempt to grow. -/
def mayGrow (q : Partpool) : Bool :=
  decide (q.partitionType = .dynamic) && decide (q.growBlocks ≠ 0) &&
    (decide (q.maximumBlocks = 0) || decide (q.totalBlocks < q.maximumBlocks))

/-- `number_of_blocks` of a growth. -/
def growth (q : Partpool) : ℕ :=
  if q.maximumBlocks ≠ 0 ∧ q.growBlocks > sub32 q.maximumBlocks q.totalBlocks then
    sub32 q.maximumBlocks q.totalBlocks
  else q.growBlocks

/-- What a growth by `n` blocks asks `_mem_alloc_system` for. -/
def growthBytes (q : Partpool) (n : ℕ) : ℕ :=
  add32 (sizeofPartpoolBlock + pspMemoryAlignment) (q.blockSize * n % 2 ^ 32)

end Partpool

namespace State

variable (s : State)

/-- A change of one partition. -/
def setPartpool (p : ℕ) (q : Partpool) : State := { s with partpool := update s.partpool p q }

/-- A change of the header of a block. -/
def setBlock (b : ℕ) (header : Iblock) : State := { s with block := update s.block b header }

/-- A change of what a task is doing. -/
def setGrowing (t : ℕ) (g : Option Growth) : State :=
  { s with growing := update s.growing t g }

/-- A store to `TOTAL_BLOCKS`. -/
def setTotal (p total : ℕ) : State :=
  s.setPartpool p { s.partpool p with totalBlocks := total }

/-- A block is put in front of the free list of a partition. -/
def pushBlock (p b taskId : ℕ) : State :=
  let q := s.partpool p
  let header : Iblock := { s.block b with link := q.freeList, taskId := taskId }
  { s with
    block := update s.block b header.calcChecksum
    partpool := update s.partpool p
      { q with freeList := b, available := add32 q.available 1 } }

/-- The end of `_partition_alloc_internal`, once a block is available. -/
def takeBlock (p owner : ℕ) : State × Except PartitionCode ℕ :=
  let q := s.partpool p
  let b := q.freeList
  if !(s.block b).validChecksum then (s, .error .blockInvalidChecksum)
  else
    let available := sub32 q.available 1
    let used := sub32 q.totalBlocks available
    let header : Iblock := { s.block b with link := p, taskId := owner }
    ({ s with
        block := update s.block b header.calcChecksum
        partpool := update s.partpool p
          { q with
            freeList := (s.block b).link
            available := available
            maxBlocksUsed := if used > q.maxBlocksUsed then used else q.maxBlocksUsed } },
      .ok (add32 b sizeofIblock))

/-- `_partition_alloc_internal` by task `t`, up to the end or to where a growth starts. -/
def partitionAlloc (t p owner : ℕ) : State × Option (Except PartitionCode ℕ) :=
  let q := s.partpool p
  if q.pool.valid ≠ partitionValid then (s, some (.error .partitionInvalid))
  else if q.available = 0 then
    if q.mayGrow then
      ((s.setTotal p (add32 q.totalBlocks q.growth)).setGrowing t
        (some (.allocating p q.growth owner)), none)
    else (s, some (.error .outOfBlocks))
  else ((s.takeBlock p owner).1, some (s.takeBlock p owner).2)

/-- The head of `_partition_extend_internal` for the area at `a`. -/
def extendInternal (p a n : ℕ) (owner : Option ℕ) : Growth :=
  .adding p ⟨partitionValid, n, firstIblockOf a⟩ (firstIblockOf a) n owner

/-- One round of the loop of `_partition_extend_internal`. -/
def addBlock (p b : ℕ) : State :=
  { s.pushBlock p b (s.block b).taskId with made := update s.made p (s.made p ++ [b]) }

/-- The area goes behind `POOL`. -/
def linkArea (p : ℕ) (area : PartpoolBlock) : State :=
  s.setPartpool p { s.partpool p with extensions := area :: (s.partpool p).extensions }

/-- Task `t` goes on with its growth, to the next point where interrupts are enabled. The
argument is what `_mem_alloc_system` returns. -/
def resume (t : ℕ) (memory : Option ℕ) : State × Option (Except PartitionCode ℕ) :=
  match s.growing t with
  | none => (s, none)
  | some (.allocating p n owner) =>
    match memory with
    | some a => (s.setGrowing t (some (extendInternal p a n (some owner))), none)
    | none => (s.setGrowing t (some (.rollingBack p n owner (s.partpool p).totalBlocks)), none)
  | some (.rollingBack p n owner total) =>
    ((s.setTotal p (sub32 total n)).setGrowing t (some (.retry p owner)), none)
  | some (.extending p n location total) =>
    ((s.setTotal p (add32 total n)).setGrowing t (some (extendInternal p location n none)), none)
  | some (.adding p area b (left + 1) owner) =>
    ((s.addBlock p b).setGrowing t
      (some (.adding p area (add32 b (s.partpool p).blockSize) left owner)), none)
  | some (.adding p area _ 0 owner) =>
    ((s.linkArea p area).setGrowing t (owner.map (.retry p)), none)
  | some (.retry p owner) =>
    let s := s.setGrowing t none
    if (s.partpool p).available = 0 then (s, some (.error .outOfBlocks))
    else ((s.takeBlock p owner).1, some (s.takeBlock p owner).2)

/-- `_partition_extend` by task `t`, up to where `TOTAL_BLOCKS` has been loaded. -/
def partitionExtend (t p location size : ℕ) : State × Option PartitionCode :=
  let q := s.partpool p
  let area := memoryAlignValLarger location
  let before := sub32 (firstIblockOf area) location
  if q.pool.valid ≠ partitionValid then (s, some .partitionInvalid)
  else if q.partitionType = .dynamic then (s, some .invalidParameter)
  else if size < before then (s, some .invalidParameter)
  else if sub32 size before / q.blockSize = 0 then (s, some .invalidParameter)
  else
    (s.setGrowing t (some (.extending p (sub32 size before / q.blockSize) area q.totalBlocks)),
      none)

/-- `_partition_free` of the block `b` by task `t`. -/
def partitionFree (t b : ℕ) : State × PartitionCode :=
  let header := s.block b
  if !header.validChecksum then (s, .blockInvalidChecksum)
  else if header.taskId ≠ s.systemTaskId ∧ header.taskId ≠ t then (s, .notResourceOwner)
  else if (s.partpool header.link).pool.valid ≠ partitionValid then (s, .partitionInvalid)
  else (s.pushBlock header.link b 0, .ok)

/-- `_task_get_td` in task `t`: the task whose descriptor is found. -/
def taskGetTd (t id : ℕ) : Option ℕ :=
  if id = 0 then some t
  else if id = s.systemTaskId ∨ id ∈ s.tasks then some id
  else none

/-- `_partition_transfer` of the block `b` by task `t`. -/
def partitionTransfer (t b id : ℕ) : State × PartitionCode :=
  if !(s.block b).validChecksum then (s, .blockInvalidChecksum)
  else if (s.taskGetTd t id).isNone then (s, .invalidTaskId)
  else
    let header : Iblock := { s.block b with taskId := id }
    (s.setBlock b header.calcChecksum, .ok)

/-- `_partition_cleanup` at one block. -/
def cleanupBlock (t p : ℕ) (s : State) (b : ℕ) : State :=
  if (s.block b).taskId = t ∧ (s.block b).link = p then s.pushBlock p b (s.block b).taskId
  else s

/-- `_partition_cleanup` at one area. -/
def cleanupArea (t p : ℕ) (s : State) (area : PartpoolBlock) : State :=
  ((s.partpool p).iblocks area).foldl (cleanupBlock t p) s

/-- `_partition_cleanup` at one partition, up to an area that is not valid. -/
def cleanupPartition (t : ℕ) (s : State) (p : ℕ) : State :=
  ((s.partpool p).areas.takeWhile fun area => area.valid = partitionValid).foldl
    (cleanupArea t p) s

/-- `_partition_cleanup`. -/
def partitionCleanup (t : ℕ) : State := s.partitions.foldl (cleanupPartition t) s

/-- A task is destroyed; a growth that it was in goes no further. -/
def taskDestroy (t : ℕ) : State :=
  { (s.partitionCleanup t).setGrowing t none with tasks := s.tasks.erase t }

/-- The loops of `_partition_test` over the areas of a partition. -/
def testBlocks (p : ℕ) : List ℕ → PartitionCode
  | [] => .ok
  | b :: l =>
    if (s.partpool p).pool.valid ≠ partitionValid then .partitionInvalid
    else if !(s.block b).validChecksum then .blockInvalidChecksum
    else testBlocks p l

/-- The loop of `_partition_test` over a free list. -/
def testFreeList : ℕ → ℕ → Option PartitionCode
  | _, 0 => some .ok
  | 0, _ + 1 => none
  | fuel + 1, b + 1 =>
    if !(s.block (b + 1)).validChecksum then some .blockInvalidChecksum
    else testFreeList fuel (s.block (b + 1)).link

/-- `_partition_test` over the partitions of a list, where the queue of partitions is right. -/
def partitionTest (fuel : ℕ) : List ℕ → Option PartitionCode
  | [] => some .ok
  | p :: l =>
    let q := s.partpool p
    match s.testBlocks p (q.areas.flatMap q.iblocks) with
    | .ok =>
      match s.testFreeList fuel q.freeList with
      | some .ok => partitionTest fuel l
      | r => r
    | r => some r

end State

/-- The calls, and what happens between them: a task goes on with a growth, a task is created
or destroyed. -/
inductive Op
  | alloc (t p : ℕ) (system : Bool)
  | resume (t : ℕ) (memory : Option ℕ)
  | extend (t p location size : ℕ)
  | free (t b : ℕ)
  | transfer (t b id : ℕ)
  | taskCreate (t : ℕ)
  | taskDestroy (t : ℕ)

/-- One step. -/
def State.apply (s : State) : Op → State
  | .alloc t p system => (s.partitionAlloc t p (if system then s.systemTaskId else t)).1
  | .resume t memory => (s.resume t memory).1
  | .extend t p location size => (s.partitionExtend t p location size).1
  | .free t b => (s.partitionFree t b).1
  | .transfer t b id => (s.partitionTransfer t b id).1
  | .taskCreate t => { s with tasks := insert t s.tasks }
  | .taskDestroy t => s.taskDestroy t

def State.run (s : State) : List Op → State
  | [] => s
  | op :: ops => (s.apply op).run ops

end Mqx.Mem.Partition
