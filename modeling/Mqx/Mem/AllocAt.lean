import Mqx.Mem.AllocAlign

/-!
# Allocation at an address

Model of `_mem_alloc_at_internal`. The search takes the first free block that holds the
requested block. What is left in front of the requested block stays a free block when it is big
enough; otherwise it is added to the left neighbour and the free block leaves the free list.
-/

namespace Mqx.Mem

open PointerList

namespace Kernel

/-- `_mem_alloc_at_internal`: cut the rest off behind the allocated block. -/
def cutRestAt (s : Kernel) (free block requestedSize nextBlockSize : ℕ) : Kernel :=
  let next := add32 block requestedSize
  let h := s.heap
  let h := { h with
    blocksize := Function.update h.blocksize next nextBlockSize
    prevblock := Function.update h.prevblock next block
    taskNumber := Function.update h.taskNumber next 0 }
  let h := h.calcChecksum next
  let h := { h with
    nextblock := Function.update (Function.update h.nextblock next (h.nextblock free)) block next
    userArea := Function.update h.userArea next block }
  let h := { h with
    userArea := if h.nextblock next ≠ 0 then Function.update h.userArea (h.nextblock next) next
      else h.userArea }
  let h := { h with blocksize := Function.update h.blocksize block requestedSize }
  let nextNext := h.nextPhys next
  let h := { h with prevblock := Function.update h.prevblock nextNext next }
  { s with heap := h.calcChecksum nextNext }

/-- `_mem_alloc_at_internal`: the leading piece stays on the free list. -/
def keepFront (s : Kernel) (td free block freeBlockSize size nextFree : ℕ) : Kernel :=
  let h := s.heap
  let h := { h with
    blocksize := Function.update h.blocksize free freeBlockSize
    nextblock := Function.update h.nextblock free nextFree
    taskNumber := Function.update h.taskNumber free 0 }
  let h := h.calcChecksum free
  let h := { h with
    blocksize := Function.update h.blocksize block size
    prevblock := Function.update h.prevblock block free
    memType := Function.update h.memType block 0
    taskNumber := Function.update h.taskNumber block td }
  { s with heap := h.calcChecksum block }

/-- `_mem_alloc_at_internal`: the leading piece is added to the block before it, and the free
block is unlinked. -/
def absorbFront (s : Kernel) (td mp free block freeBlockSize size nextFree : ℕ) : Kernel :=
  let h := s.heap
  let h := { h with prevblock := Function.update h.prevblock block (h.prevblock free) }
  let h := { h with
    blocksize := Function.update h.blocksize block size
    memType := Function.update h.memType block 0
    taskNumber := Function.update h.taskNumber block td }
  let h := h.calcChecksum block
  let prev := h.prevblock block
  let h := { h with
    blocksize := Function.update h.blocksize prev (add32 (h.blocksize prev) freeBlockSize) }
  let h := h.calcChecksum prev
  let p := s.pools mp
  let s := { s with heap := h }
  let s := if free = p.poolFreeListPtr then
      let s := s.setPool mp { p with poolFreeListPtr := nextFree }
      if nextFree ≠ 0 then
        { s with heap := { h with userArea := Function.update h.userArea nextFree 0 } }
      else s
    else
      let before := h.userArea free
      let after := h.nextblock free
      { s with heap := { h with
          nextblock := Function.update h.nextblock before after
          userArea := if after ≠ 0 then Function.update h.userArea after before else h.userArea } }
  let p := s.pools mp
  s.setPool mp { p with
    poolFreeCurrentBlock :=
      if free = p.poolFreeCurrentBlock then p.poolFreeListPtr else p.poolFreeCurrentBlock }

/-- `_mem_alloc_at_internal`: the request fits into the block `free`. -/
def allocBlockAt (s : Kernel) (td mp free requestedAddr requestedSize : ℕ) : Kernel :=
  let block := getMemblockPtr requestedAddr
  let freeBlockSize := sub32 block free
  let nextBlockSize := sub32 (sub32 (s.heap.blocksize free) requestedSize) freeBlockSize
  let splits := 2 * mqxMinMemoryStorageSize ≤ nextBlockSize
  let size := if splits then requestedSize else add32 requestedSize nextBlockSize
  let nextFree := if splits then add32 block requestedSize else s.heap.nextblock free
  let s := if splits then s.cutRestAt free block requestedSize nextBlockSize else s
  let s := if 2 * mqxMinMemoryStorageSize ≤ freeBlockSize then
      s.keepFront td free block freeBlockSize size nextFree
    else s.absorbFront td mp free block freeBlockSize size nextFree
  let p := s.pools mp
  let s := s.setPool mp { p with
    poolFreeCheckBlock := p.poolFreeListPtr
    poolAllocCurrentBlock := p.poolFreeListPtr }
  (s.rememberHighest mp block).linkOntoTask td mp block

end Kernel

/-- The requested block lies in the block. -/
def FitsAt (s : Kernel) (requestedAddr requestedSize block : ℕ) : Prop :=
  userAreaPtr block ≤ requestedAddr ∧
    add32 requestedAddr requestedSize ≤ add32 (userAreaPtr block) (s.heap.blocksize block) ∧
    requestedSize ≤ s.heap.blocksize block

instance (s : Kernel) (requestedAddr requestedSize block : ℕ) :
    Decidable (FitsAt s requestedAddr requestedSize block) :=
  inferInstanceAs (Decidable (_ ∧ _))

/-- `_mem_alloc_at_internal` from a window to the next one. -/
def memAllocAtResume (s : Kernel) (requestedSize requestedAddr td mp blockPtr : ℕ) :
    Stretch AllocResult :=
  let p := s.pools mp
  let blockPtr := if p.poolAllocCurrentBlock ≠ blockPtr then p.poolFreeListPtr else blockPtr
  let inError := s.setPool mp { p with poolBlockInError := blockPtr }
  if blockPtr = 0 then allocReturn inError 0 .outOfMemory []
  else if ¬MemoryAligned blockPtr ∨ ¬s.heap.BlockIsFree blockPtr then
    allocReturn inError 0 .corruptStoragePoolFreeList []
  else if ¬s.heap.ValidChecksum blockPtr then allocReturn inError 0 .invalidChecksum []
  else if FitsAt s requestedAddr requestedSize blockPtr then
    let block := getMemblockPtr requestedAddr
    if ¬MemoryAligned (userAreaPtr block) then allocReturn s 0 .invalidConfiguration [blockPtr]
    else
      allocReturn (s.allocBlockAt td mp blockPtr requestedAddr requestedSize) (userAreaPtr block)
        .ok [blockPtr]
  else memAllocWindow s mp (s.heap.nextblock blockPtr) [blockPtr]

/-- `_mem_alloc_at_internal` without interference. -/
def memAllocAtInternal (s : Kernel) (requestedSize requestedAddr td mp : ℕ) :
    Option (AllocResult × Kernel) :=
  searchRun (fun s b => memAllocAtResume s (adjustSize requestedSize) requestedAddr td mp b)
    maxSteps (memAllocBegin s mp)

namespace PoolInv

variable {s : Kernel} {mp : ℕ} {bs fl limbo stale : List ℕ} {rl : ℕ → List ℕ}

theorem memAllocAtResume_eq (i : PoolInv s mp bs fl rl limbo stale) {f : ℕ} (addr req td : ℕ)
    (hf : f ∈ fl) : memAllocAtResume (atWindow s mp f) req addr td mp f =
      if FitsAt s addr req f then
        if ¬MemoryAligned (userAreaPtr (getMemblockPtr addr)) then
          allocReturn (atWindow s mp f) 0 .invalidConfiguration [f]
        else
          allocReturn ((atWindow s mp f).allocBlockAt td mp f addr req)
            (userAreaPtr (getMemblockPtr addr)) .ok [f]
      else memAllocWindow (atWindow s mp f) mp (s.heap.nextblock f) [f] := by
  obtain ⟨hbs, hfree, -⟩ := i.mem_of_free hf
  have hfb := i.phys.bounds hbs
  have hptr := searchPtr_atWindow s mp f
  have h0 : f ≠ 0 := by omega
  have hal : MemoryAligned f := hfb.1
  have hfree' : (atWindow s mp f).heap.BlockIsFree f := hfree
  have hsum : (atWindow s mp f).heap.ValidChecksum f := i.sum_of_free hf
  have hfits : FitsAt (atWindow s mp f) addr req f ↔ FitsAt s addr req f := Iff.rfl
  unfold memAllocAtResume
  simp only
  rw [← searchPtr, hptr]
  simp only [h0, hal, hfree', hsum, hfits, not_true, or_self, if_false, nextblock_atWindow]

/-- The search reports that no block holds the requested one, rejects the address, or takes the
first block that holds it. -/
theorem memAllocAtInternal_cases (i : PoolInv s mp bs fl rl [] []) (size addr td : ℕ) :
    (∃ code s', memAllocAtInternal s size addr td mp = some ((0, code), s') ∧
      (s'.pools mp).poolHighestMemoryUsed = (s.pools mp).poolHighestMemoryUsed ∧
      ((∀ f ∈ fl, ¬FitsAt s addr (adjustSize size) f) ∨
        ¬MemoryAligned (userAreaPtr (getMemblockPtr addr)))) ∨
    ∃ pre f post, fl = pre ++ f :: post ∧ (∀ c ∈ pre, ¬FitsAt s addr (adjustSize size) c) ∧
      FitsAt s addr (adjustSize size) f ∧ MemoryAligned (userAreaPtr (getMemblockPtr addr)) ∧
      memAllocAtInternal s size addr td mp =
        some ((userAreaPtr (getMemblockPtr addr), .ok),
          (atWindow s mp f).allocBlockAt td mp f addr (adjustSize size)) := by
  have hlen := i.phys.length_lt i.free.nodup fun b hb => (i.mem_of_free hb).1
  have hhead : (s.pools mp).poolFreeListPtr = fl.headD 0 := i.free.head_eq
  obtain ⟨n, h⟩ := searchRun_window (f := [])
    (fun s b => memAllocAtResume s (adjustSize size) addr td mp b)
    (FitsAt s addr (adjustSize size)) i (by
      intro b hb hfit
      refine ⟨[b], ?_⟩
      have he := i.memAllocAtResume_eq addr (adjustSize size) td hb
      rw [if_neg hfit] at he
      exact he) maxSteps [] (by omega)
  unfold memAllocAtInternal memAllocBegin
  rw [hhead]
  rcases h with ⟨hnone, hrun⟩ | ⟨pre, f, post, rfl, hpre, hfit, hrun⟩
  · left
    rw [hrun]
    have hptr := searchPtr_atWindow s mp 0
    unfold memAllocAtResume
    simp only
    rw [← searchPtr, hptr]
    refine ⟨.outOfMemory, _, rfl, ?_, Or.inl hnone⟩
    simp [allocReturn, Kernel.setPool, atWindow]
  · have he := i.memAllocAtResume_eq (f := f) addr (adjustSize size) td (by simp)
    rw [if_pos hfit] at he
    by_cases hal : MemoryAligned (userAreaPtr (getMemblockPtr addr))
    · right
      refine ⟨pre, f, post, rfl, hpre, hfit, hal, ?_⟩
      rw [if_neg (not_not.mpr hal)] at he
      rw [hrun, he]
      rfl
    · left
      rw [if_pos hal] at he
      refine ⟨.invalidConfiguration, atWindow s mp f, ?_, ?_, Or.inr hal⟩
      · rw [hrun, he]
        rfl
      · simp [Kernel.setPool, atWindow]

end PoolInv
end Mqx.Mem
