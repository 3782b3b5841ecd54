import Mqx.Mem.TestPool

/-!
# Aligned allocation

`_mem_alloc_internal_align` cuts a free block in up to three pieces: a leading piece
that stays free, the allocated block, whose user area has the requested alignment,
and a rest. A rest that is too small for a block is added to the allocated block.
In that case the block behind it is not told about its new left neighbour.
-/

namespace Mqx.Mem

open PointerList

/-- `p & ~(a - 1)` for a power of two `a`. -/
def alignDown (p a : ℕ) : ℕ := p - p % a

/-- The length of the leading piece: the distance to the next aligned user area, or to a
later one when the piece would be too small. -/
def alignShift (reqAlign block : ℕ) : ℕ :=
  let user := userAreaPtr block
  let shift := sub32 (alignDown (add32 user reqAlign) reqAlign) user
  if shift < 2 * mqxMinMemoryStorageSize then
    sub32 (alignDown (add32 (add32 user (3 * mqxMinMemoryStorageSize)) reqAlign) reqAlign) user
  else shift

namespace Kernel

/-- Store `PREVBLOCK` of a block. -/
def setPrevblock (s : Kernel) (block prev : ℕ) : Kernel :=
  { s with heap := { s.heap with prevblock := Function.update s.heap.prevblock block prev } }

/-- `_mem_alloc_internal_align`: cut the rest off behind the allocated block. -/
def cutRest (s : Kernel) (free block requestedSize nextBlockSize : ℕ) : Kernel :=
  let next := add32 block requestedSize
  let h := s.heap
  let h := { h with
    blocksize := Function.update h.blocksize next nextBlockSize
    prevblock := Function.update h.prevblock next block
    taskNumber := Function.update h.taskNumber next 0 }
  let h := h.calcChecksum next
  let h := { h with
    nextblock := Function.update (Function.update h.nextblock next (h.nextblock free)) block next
    userArea := Function.update h.userArea next free }
  let h := { h with
    userArea := if h.nextblock next ≠ 0 then Function.update h.userArea (h.nextblock next) next
      else h.userArea }
  let h := { h with blocksize := Function.update h.blocksize block requestedSize }
  let nextNext := h.nextPhys next
  let h := { h with prevblock := Function.update h.prevblock nextNext next }
  { s with heap := h.calcChecksum nextNext }

/-- `_mem_alloc_internal_align`: the headers of the leading piece and of the allocated
block, and the resource list. -/
def placeAligned (s : Kernel) (td mp free block shift size nextFree : ℕ) : Kernel :=
  let h := s.heap
  let h := { h with
    blocksize := Function.update h.blocksize free shift
    nextblock := Function.update h.nextblock free nextFree
    taskNumber := Function.update h.taskNumber free 0 }
  let h := h.calcChecksum free
  let h := { h with
    blocksize := Function.update h.blocksize block size
    prevblock := Function.update h.prevblock block free
    memType := Function.update h.memType block 0
    taskNumber := Function.update h.taskNumber block td }
  let h := h.calcChecksum block
  (Kernel.rememberHighest { s with heap := h } mp block).linkOntoTask td mp block

/-- `_mem_alloc_internal_align`: the request fits into the block `free`. -/
def allocBlockAlign (s : Kernel) (td mp free requestedSize reqAlign : ℕ) : Kernel :=
  let blockSize := s.heap.blocksize free
  let shift := alignShift reqAlign free
  let block := add32 free shift
  let s := s.setPrevblock block free
  let nextBlockSize := sub32 (sub32 blockSize requestedSize) shift
  if 2 * mqxMinMemoryStorageSize ≤ nextBlockSize then
    (s.cutRest free block requestedSize nextBlockSize).placeAligned td mp free block shift
      requestedSize (add32 block requestedSize)
  else s.placeAligned td mp free block shift (add32 requestedSize nextBlockSize)
    (s.heap.nextblock free)

end Kernel

/-- The request and the leading piece fit into the block. -/
def FitsAligned (s : Kernel) (requestedSize reqAlign block : ℕ) : Prop :=
  add32 requestedSize (alignShift reqAlign block) ≤ s.heap.blocksize block

instance (s : Kernel) (requestedSize reqAlign block : ℕ) :
    Decidable (FitsAligned s requestedSize reqAlign block) :=
  inferInstanceAs (Decidable (_ ≤ _))

/-- `_mem_alloc_internal_align` from a window to the next one. -/
def memAllocAlignResume (s : Kernel) (requestedSize reqAlign td mp blockPtr : ℕ) :
    Stretch AllocResult :=
  let p := s.pools mp
  let blockPtr := if p.poolAllocCurrentBlock ≠ blockPtr then p.poolFreeListPtr else blockPtr
  let inError := s.setPool mp { p with poolBlockInError := blockPtr }
  if blockPtr = 0 then allocReturn inError 0 .outOfMemory []
  else if ¬MemoryAligned blockPtr ∨ ¬s.heap.BlockIsFree blockPtr then
    allocReturn inError 0 .corruptStoragePoolFreeList []
  else if ¬s.heap.ValidChecksum blockPtr then allocReturn inError 0 .invalidChecksum []
  else if FitsAligned s requestedSize reqAlign blockPtr then
    let block := add32 blockPtr (alignShift reqAlign blockPtr)
    if ¬MemoryAligned (userAreaPtr block) then allocReturn s 0 .invalidConfiguration [blockPtr]
    else
      allocReturn (s.allocBlockAlign td mp blockPtr requestedSize reqAlign) (userAreaPtr block) .ok
        [blockPtr]
  else memAllocWindow s mp (s.heap.nextblock blockPtr) [blockPtr]

/-- The alignment the search works with. -/
def adjustAlign (reqAlign : ℕ) : ℕ :=
  if reqAlign ≤ pspMemoryAlignment then pspMemoryAlignment + 1 else reqAlign

/-- `_mem_alloc_internal_align` without interference. -/
def memAllocInternalAlign (s : Kernel) (requestedSize reqAlign td mp : ℕ) :
    Option (AllocResult × Kernel) :=
  if reqAlign ≠ 0 ∧ reqAlign &&& (reqAlign - 1) ≠ 0 then some ((0, .invalidParameter), s)
  else
    searchRun (fun s b => memAllocAlignResume s (adjustSize requestedSize) (adjustAlign reqAlign)
      td mp b) maxSteps (memAllocBegin s mp)

/-! ## Arithmetic -/

/-- The distance from `u` to the aligned address that follows `u + k`, also when the sum
wraps around. -/
theorem sub32_alignDown {u k a : ℕ} (hu : u < 2 ^ 32) (ha : a ∣ 2 ^ 32) (h0 : 0 < a)
    (hk : k + a < 2 ^ 32) :
    sub32 (alignDown (add32 (add32 u k) a) a) u = k + a - (u + k) % a := by
  have hmod : add32 (add32 u k) a % a = (u + k) % a := by
    unfold add32
    rw [Nat.mod_mod_of_dvd _ ha, Nat.add_mod_right, Nat.mod_mod_of_dvd _ ha]
  have hlt : (u + k) % a < a := Nat.mod_lt _ h0
  have hle : (u + k) % a ≤ add32 (add32 u k) a := by
    rw [← hmod]
    exact Nat.mod_le _ _
  unfold alignDown
  rw [hmod]
  generalize (u + k) % a = ρ at *
  unfold sub32
  unfold add32 at *
  omega

/-- The alignment of the search divides the address space and is a multiple of the cache
line. -/
theorem adjustAlign_spec {reqAlign : ℕ} (hlt : reqAlign < 2 ^ 32)
    (h : ¬(reqAlign ≠ 0 ∧ reqAlign &&& (reqAlign - 1) ≠ 0)) :
    16 ∣ adjustAlign reqAlign ∧ adjustAlign reqAlign ∣ 2 ^ 32 ∧ adjustAlign reqAlign < 2 ^ 32 := by
  unfold adjustAlign
  split_ifs with hsmall
  · exact ⟨by decide, by decide, by decide⟩
  · have hbig : 16 ≤ reqAlign := by
      simp only [pspMemoryAlignment, pspCacheLineSize] at hsmall
      omega
    have hland : reqAlign &&& (reqAlign - 1) = 0 := by
      by_contra hne
      exact h ⟨by omega, hne⟩
    obtain ⟨k, rfl⟩ := (Nat.and_sub_one_eq_zero_iff_isPowerOfTwo (by omega)).mp hland
    have hk4 : 4 ≤ k := (Nat.pow_le_pow_iff_right (a := 2) (by decide)).mp hbig
    have hk32 : k < 32 := (Nat.pow_lt_pow_iff_right (a := 2) (by decide)).mp hlt
    exact ⟨pow_dvd_pow 2 hk4, pow_dvd_pow 2 hk32.le, hlt⟩

/-- The leading piece is a block of its own. -/
theorem alignShift_spec {a f : ℕ} (h16 : 16 ∣ a) (hd : a ∣ 2 ^ 32) (hlt : a < 2 ^ 32)
    (hf : f % 16 = 0) (hf48 : f + 48 < 2 ^ 32) :
    96 ≤ alignShift a f ∧ alignShift a f % 16 = 0 ∧ alignShift a f < 2 ^ 32 := by
  have h0 : 0 < a := Nat.pos_of_dvd_of_pos hd (by decide)
  have ha : a ≤ 2 ^ 31 := by
    obtain ⟨q, hq⟩ := hd
    have hq2 : 2 ≤ q := by
      by_contra hq2
      interval_cases q <;> omega
    have hmul := Nat.mul_le_mul_left a hq2
    omega
  have hu := userAreaPtr_eq hf48
  have hadd0 : add32 (f + 32) a = add32 (add32 (f + 32) 0) a := by
    rw [add32_of_lt (show f + 32 + 0 < 2 ^ 32 by omega), Nat.add_zero]
  unfold alignShift
  simp only [hu, minSize_eq]
  rw [hadd0, sub32_alignDown (by omega) hd h0 (by omega), sub32_alignDown (by omega) hd h0 (by omega)]
  have h1 : (f + 32 + 0) % a % 16 = (f + 32 + 0) % 16 := Nat.mod_mod_of_dvd _ h16
  have h2 : (f + 32 + 3 * 48) % a % 16 = (f + 32 + 3 * 48) % 16 := Nat.mod_mod_of_dvd _ h16
  have hl1 : (f + 32 + 0) % a < a := Nat.mod_lt _ h0
  have hl2 : (f + 32 + 3 * 48) % a < a := Nat.mod_lt _ h0
  generalize (f + 32 + 0) % a = x at *
  generalize (f + 32 + 3 * 48) % a = y at *
  split_ifs <;> omega

/-! ## The stores -/

namespace Kernel

variable (s : Kernel) (td mp free block requestedSize shift : ℕ)

@[simp] theorem setPrevblock_pools (prev : ℕ) : (s.setPrevblock block prev).pools = s.pools := rfl

@[simp] theorem setPrevblock_memoryResourceList (prev : ℕ) :
    (s.setPrevblock block prev).memoryResourceList = s.memoryResourceList := rfl

@[simp] theorem setPrevblock_freeList (prev : ℕ) :
    (s.setPrevblock block prev).freeList mp = s.freeList mp := rfl

@[simp] theorem setPrevblock_heap (prev : ℕ) : (s.setPrevblock block prev).heap =
    { s.heap with prevblock := Function.update s.heap.prevblock block prev } := rfl

@[simp] theorem cutRest_pools (nextBlockSize : ℕ) :
    (s.cutRest free block requestedSize nextBlockSize).pools = s.pools := rfl

@[simp] theorem cutRest_memoryResourceList (nextBlockSize : ℕ) :
    (s.cutRest free block requestedSize nextBlockSize).memoryResourceList =
      s.memoryResourceList := rfl

@[simp] theorem placeAligned_memoryResourceList (size nextFree : ℕ) :
    (s.placeAligned td mp free block shift size nextFree).memoryResourceList =
      Function.update s.memoryResourceList td (userAreaPtr block) := by
  simp [placeAligned, linkOntoTask]

theorem placeAligned_pool (size nextFree : ℕ) :
    ((s.placeAligned td mp free block shift size nextFree).pools mp).poolPtr = (s.pools mp).poolPtr ∧
    ((s.placeAligned td mp free block shift size nextFree).pools mp).poolEndPtr =
      (s.pools mp).poolEndPtr ∧
    ((s.placeAligned td mp free block shift size nextFree).pools mp).poolFreeListPtr =
      (s.pools mp).poolFreeListPtr := by
  simp only [placeAligned, linkOntoTask]
  rw [rememberHighest_pool]
  simp

/-- The stores to block headers when the rest is cut off. -/
theorem cutRest_placeAligned_heap (rest next nextNext : ℕ) (hn : add32 block requestedSize = next)
    (hnn : add32 next rest = nextNext)
    (hfb : free ≠ block) (hfn : free ≠ next) (hfm : free ≠ nextNext)
    (hbn : block ≠ next) (hbm : block ≠ nextNext) (hnm : next ≠ nextNext) :
    ((s.cutRest free block requestedSize rest).placeAligned td mp free block shift requestedSize
      next).heap =
    { taskNumber := Function.update (Function.update (Function.update s.heap.taskNumber next 0)
        free 0) block td
      memType := Function.update s.heap.memType block 0
      blocksize := Function.update (Function.update (Function.update s.heap.blocksize next rest)
        free shift) block requestedSize
      memPoolPtr := Function.update s.heap.memPoolPtr block mp
      nextblock := Function.update ((s.freeList mp).insertAfter 0 free next).next block
        (s.memoryResourceList td)
      prevblock := Function.update (Function.update (Function.update s.heap.prevblock next block)
        nextNext next) block free
      checksum := Function.update (Function.update (Function.update (Function.update
        s.heap.checksum next ((rest + block + s.heap.memType next) % 2 ^ 32)) nextNext
        ((s.heap.blocksize nextNext + next + s.heap.taskNumber nextNext +
          s.heap.memType nextNext) % 2 ^ 32)) free
        ((shift + s.heap.prevblock free + s.heap.memType free) % 2 ^ 32)) block
        ((requestedSize + free + td) % 2 ^ 32)
      userArea := ((s.freeList mp).insertAfter 0 free next).prev } := by
  by_cases h0 : s.heap.nextblock free = 0 <;>
    simp [cutRest, placeAligned, linkOntoTask, hn, hnn, Storeblocks.calcChecksum,
      Storeblocks.headerSum, Storeblocks.nextPhys, freeList, DList.insertAfter, h0, hfb, hfn, hfm,
      hbn, hnm, hfb.symm, hfn.symm, hfm.symm, hbn.symm, hbm.symm, hnm.symm, Function.update_comm]

theorem resize_splitBlock_memoryResourceList (size nextBlockSize : ℕ) :
    ((s.splitBlock mp block requestedSize nextBlockSize).resize block size).memoryResourceList =
      s.memoryResourceList := by
  simp [splitBlock, resize, setFreeList]

theorem allocBlockAlign_split {reqAlign rest next : ℕ} (hshift : alignShift reqAlign free = shift)
    (hb : add32 free shift = block) (hn : add32 block requestedSize = next)
    (hrest : sub32 (sub32 (s.heap.blocksize free) requestedSize) shift = rest)
    (hle : 2 * mqxMinMemoryStorageSize ≤ rest) :
    s.allocBlockAlign td mp free requestedSize reqAlign =
      ((s.setPrevblock block free).cutRest free block requestedSize rest).placeAligned td mp free block shift requestedSize next := by
  simp only [allocBlockAlign, hshift, hb, hn, hrest, hle, if_true]

theorem allocBlockAlign_absorb {reqAlign rest : ℕ} (hshift : alignShift reqAlign free = shift)
    (hb : add32 free shift = block)
    (hrest : sub32 (sub32 (s.heap.blocksize free) requestedSize) shift = rest)
    (hle : ¬2 * mqxMinMemoryStorageSize ≤ rest) :
    s.allocBlockAlign td mp free requestedSize reqAlign =
      (s.setPrevblock block free).placeAligned td mp free block shift (add32 requestedSize rest)
        (s.heap.nextblock free) := by
  simp only [allocBlockAlign, hshift, hb, hrest, hle, if_false]
  rfl

theorem cutRest_nextblock {nextBlockSize c : ℕ} (hn : c ≠ add32 block requestedSize)
    (hb : c ≠ block) : (s.cutRest free block requestedSize nextBlockSize).heap.nextblock c =
      s.heap.nextblock c := by
  simp [cutRest, Storeblocks.calcChecksum, hn, hb]

/-- The headers of the two pieces, whatever lies behind them. -/
theorem placeAligned_block (size nextFree : ℕ) (hne : free ≠ block) :
    (s.placeAligned td mp free block shift size nextFree).heap.taskNumber free = 0 ∧
    (s.placeAligned td mp free block shift size nextFree).heap.taskNumber block = td ∧
    (s.placeAligned td mp free block shift size nextFree).heap.blocksize free = shift ∧
    (s.placeAligned td mp free block shift size nextFree).heap.blocksize block = size := by
  simp [placeAligned, linkOntoTask, Storeblocks.calcChecksum, hne]

theorem placeAligned_nextblock {size nextFree c : ℕ} (hf : c ≠ free) (hb : c ≠ block) :
    (s.placeAligned td mp free block shift size nextFree).heap.nextblock c =
      s.heap.nextblock c := by
  simp [placeAligned, linkOntoTask, Storeblocks.calcChecksum, hf, hb]

theorem placeAligned_prevblock {size nextFree c : ℕ} (hb : c ≠ block) :
    (s.placeAligned td mp free block shift size nextFree).heap.prevblock c =
      s.heap.prevblock c := by
  simp [placeAligned, linkOntoTask, Storeblocks.calcChecksum, hb]

end Kernel

/-! ## The rest is split off -/

namespace Layout

variable {s : Kernel} {mp td f m : ℕ} {l r pre post limbo stale : List ℕ} {rl : ℕ → List ℕ}

/-- The same three pieces come out of two splits of `_mem_alloc_internal`. -/
theorem splitTwice {req shift b n : ℕ} (rest : ℕ)
    (i : Layout s mp (l ++ f :: m :: r) (pre ++ f :: post) rl limbo stale) (hs1 : 48 ≤ shift)
    (hs2 : shift % 16 = 0) (hreq : 48 ≤ req) (hal : req % 16 = 0) (hrest : 48 ≤ rest)
    (hsum : shift + req + rest = s.heap.blocksize f) (hb : f + shift = b) (hn : b + req = n) :
    ∃ s2, Layout s2 mp (l ++ f :: b :: n :: m :: r) (pre ++ f :: b :: n :: post) rl limbo stale ∧
      s2.pools mp = s.pools mp ∧ s2.memoryResourceList = s.memoryResourceList ∧
      (∀ c, c ≠ f → c ≠ b → c ≠ n → s2.heap.nextblock c = s.heap.nextblock c) ∧
      s2.heap =
        { taskNumber := Function.update (Function.update s.heap.taskNumber b 0) n 0
          memType := s.heap.memType
          blocksize := Function.update (Function.update (Function.update (Function.update
            s.heap.blocksize b (req + rest)) f shift) n rest) b req
          memPoolPtr := s.heap.memPoolPtr
          nextblock := s2.heap.nextblock
          prevblock := Function.update (Function.update (Function.update (Function.update
            s.heap.prevblock b f) m b) n b) m n
          checksum := Function.update (Function.update (Function.update (Function.update
            s.heap.checksum f ((shift + s.heap.prevblock f + s.heap.taskNumber f +
              s.heap.memType f) % 2 ^ 32)) n ((rest + b + s.heap.memType n) % 2 ^ 32)) m
            ((s.heap.blocksize m + n + s.heap.taskNumber m + s.heap.memType m) % 2 ^ 32)) b
            ((req + f + s.heap.memType b) % 2 ^ 32)
          userArea := s2.heap.userArea } := by
  have hf := (i.mem_of_free (b := f) (by simp)).1
  have hfb := i.phys.bounds hf
  have hfm := i.phys.next_eq
  have h1 := i.splitBlock (req + rest) hs1 hs2 (by omega) (by omega) hb
  have e1 := s.resize_splitBlock_heap mp f shift (req + rest) b m (by rw [add32_of_lt] <;> omega)
    (by rw [add32_of_lt] <;> omega) (by omega) (by omega) (by omega)
  have p1 := s.resize_splitBlock_pool mp f shift shift (req + rest)
  have m1 := s.resize_splitBlock_memoryResourceList mp f shift shift (req + rest)
  obtain ⟨s1, hs1'⟩ : ∃ s1, (s.splitBlock mp f shift (req + rest)).resize f shift = s1 := ⟨_, rfl⟩
  rw [hs1'] at h1 e1 p1 m1
  have hb1 : s1.heap.blocksize b = req + rest := by
    have hbf : b ≠ f := by omega
    simp [e1, hbf]
  have hbs1 : l ++ f :: b :: m :: r = (l ++ [f]) ++ b :: m :: r := by simp
  have hfl1 : pre ++ f :: b :: post = (pre ++ [f]) ++ b :: post := by simp
  rw [hbs1, hfl1] at h1
  have h2 := h1.splitBlock rest hreq hal (by omega) (by omega) hn
  have e2 := s1.resize_splitBlock_heap mp b req rest n m (by rw [add32_of_lt] <;> omega)
    (by rw [add32_of_lt] <;> omega) (by omega) (by omega) (by omega)
  have p2 := s1.resize_splitBlock_pool mp b req req rest
  have m2 := s1.resize_splitBlock_memoryResourceList mp b req req rest
  obtain ⟨s2, hs2'⟩ : ∃ s2, (s1.splitBlock mp b req rest).resize b req = s2 := ⟨_, rfl⟩
  rw [hs2'] at h2 e2 p2 m2
  refine ⟨s2, by simpa using h2, p2.trans p1, m2.trans m1, ?_, ?_⟩
  · intro c hcf hcb hcn
    have hnext1 : s1.heap.nextblock c = s.heap.nextblock c := by
      rw [e1]
      exact DList.insertAfter_next hcf hcb
    rw [← hnext1, e2]
    exact DList.insertAfter_next hcb hcn
  · have hsums : s2.heap.checksum = Function.update (Function.update (Function.update
        (Function.update s.heap.checksum f ((shift + s.heap.prevblock f + s.heap.taskNumber f +
          s.heap.memType f) % 2 ^ 32)) n ((rest + b + s.heap.memType n) % 2 ^ 32)) m
        ((s.heap.blocksize m + n + s.heap.taskNumber m + s.heap.memType m) % 2 ^ 32)) b
        ((req + f + s.heap.memType b) % 2 ^ 32) := by
      rw [e2, e1]
      funext c
      simp only [Function.update_apply]
      grind
    rw [← hsums, e2, e1]

/-- Cutting a free block in three and handing the middle one to a task. -/
theorem allocBlockAlign {reqAlign req shift b n : ℕ}
    (i : Layout s mp (l ++ f :: m :: r) (pre ++ f :: post) rl limbo stale) (htd : td ≠ 0)
    (hshift : alignShift reqAlign f = shift) (hs1 : 48 ≤ shift) (hs2 : shift % 16 = 0)
    (hreq : 48 ≤ req) (hal : req % 16 = 0) (hrest : req + shift + 96 ≤ s.heap.blocksize f)
    (hb : f + shift = b) (hn : b + req = n) :
    Layout (s.allocBlockAlign td mp f req reqAlign) mp (l ++ f :: b :: n :: m :: r)
      (pre ++ f :: n :: post) (Function.update rl td (b :: rl td)) limbo stale := by
  obtain ⟨hf, hfree, hend⟩ := i.mem_of_free (b := f) (by simp)
  have hfb := i.phys.bounds hf
  have hfm := i.phys.next_eq
  obtain ⟨rest, hrest'⟩ : ∃ k, k = s.heap.blocksize f - req - shift := ⟨_, rfl⟩
  obtain ⟨s2, h2, p2, m2, n2, e2⟩ := i.splitTwice rest hs1 hs2 hreq hal (by omega)
    (by omega) hb hn
  have hfl2 : pre ++ f :: b :: n :: post = (pre ++ [f]) ++ b :: n :: post := by simp
  rw [hfl2] at h2
  have hat := h2.free.at
  have hbfl : b ∉ pre ++ f :: n :: post := by
    intro hm
    simp only [List.mem_append, List.mem_cons] at hm
    rcases hm with hm | rfl | hm
    · exact hat.2.2.2.2.1 (by simp [hm])
    · exact hat.2.2.2.2.1 (by simp)
    · exact hat.2.2.2.2.2.1 (by simpa using hm)
  have hn0 : n ≠ 0 := by omega
  have hnfl : n ∉ pre ++ f :: post := by
    intro hm
    have hin := (i.mem_of_free hm).1
    exact i.phys.tiles.notMem_of_interior hf (show f < n by omega) (by omega) hin
  -- blocks in use are on none of the free list nodes whose links change
  have hused : ∀ t, ∀ c ∈ rl t, c ∉ pre ++ [f] ++ b :: n :: post := fun t c hc =>
    h2.notMem_free (h2.of_res hc).2.2
  have hunlink : ∀ t, ∀ c ∈ rl t, (DList.unlink 0 (s2.freeList mp) b).next c =
      s2.heap.nextblock c := fun t c hc => h2.free.unlink_next (by simp) (hused t c hc)
  have h3 := h2.takeBlock htd
  have hb2 : s2.heap.blocksize b = req := by
    rw [e2]
    simp
  have hfl3 : pre ++ [f] ++ n :: post = pre ++ f :: n :: post := by simp
  rw [hb2, hfl3] at h3
  have e3 := s2.takeBlock_heap td mp b req
  have p3 := s2.takeBlock_pool td mp b req
  have m3 := s2.takeBlock_memoryResourceList td mp b req
  obtain ⟨s3, hs3⟩ : ∃ s3, s2.takeBlock td mp b req = s3 := ⟨_, rfl⟩
  rw [hs3] at h3 e3 p3 m3
  have hbadd : add32 f shift = b := by rw [add32_of_lt] <;> omega
  have hnadd : add32 b req = n := by rw [add32_of_lt] <;> omega
  have hmadd : add32 n rest = m := by rw [add32_of_lt] <;> omega
  have hsub : sub32 (sub32 (s.heap.blocksize f) req) shift = rest := by
    rw [sub32_of_le (show req ≤ s.heap.blocksize f by omega) (by omega),
      sub32_of_le (by omega) (by omega), hrest']
  have hsplit := s.allocBlockAlign_split td mp f b req shift hshift hbadd hnadd hsub
    (by rw [minSize_eq]; omega)
  have hfb1 : f ≠ b := by omega
  have hfn1 : f ≠ n := by omega
  have hfm1 : f ≠ m := by omega
  have hbn1 : b ≠ n := by omega
  have hbm1 : b ≠ m := by omega
  have hnm1 : n ≠ m := by omega
  have e' := (s.setPrevblock b f).cutRest_placeAligned_heap td mp f b req shift rest n m hnadd hmadd
    hfb1 hfn1 hfm1 hbn1 hbm1 hnm1
  have p' := Kernel.placeAligned_pool ((s.setPrevblock b f).cutRest f b req rest) td mp f b shift req n
  have m' := Kernel.placeAligned_memoryResourceList ((s.setPrevblock b f).cutRest f b req rest) td mp
    f b shift req n
  rw [← hsplit] at e' p' m'
  simp only [Kernel.setPrevblock_pools, Kernel.setPrevblock_memoryResourceList,
    Kernel.setPrevblock_freeList, Kernel.setPrevblock_heap, Kernel.cutRest_pools,
    Kernel.cutRest_memoryResourceList] at e' p' m'
  obtain ⟨s', hs'⟩ : ∃ s', s.allocBlockAlign td mp f req reqAlign = s' := ⟨_, rfl⟩
  rw [hs'] at e' p' m' ⊢
  have hfl : (s'.freeList mp).Represents 0 (pre ++ f :: n :: post) := by
    refine (i.free.insertAfter hnfl hn0).congr ?_ ?_ ?_
    · rw [DList.insertAfter_head]
      exact p'.2.2
    · intro c hc
      have hcb : c ≠ b := by
        rintro rfl
        exact hbfl hc
      have hnext : s'.heap.nextblock c = ((s.freeList mp).insertAfter 0 f n).next c := by
        rw [e']
        exact Function.update_of_ne hcb _ _
      exact hnext
    · intro c _
      have hprev : s'.heap.userArea = ((s.freeList mp).insertAfter 0 f n).prev := by
        rw [e']
      exact congrFun hprev c
  have hfree0 : s.heap.taskNumber f = 0 := hfree
  apply h3.of_agree
  · intro c _
    constructor
    · rw [e', e3, e2]
      simp only [Function.update_apply]
      grind
    · rw [e', e3, e2]
    · rw [e', e3, e2]
      simp only [Function.update_apply]
      grind
    · rw [e', e3, e2]
      simp only [Function.update_apply]
      grind
    · rw [e', e3, e2]
      simp only [Function.update_apply]
      grind
  · exact hfl
  · intro t c hc
    rw [e', e3]
    rcases mem_update_cons.mp hc with ⟨rfl, rfl⟩ | hc
    · simp [m2]
    · have hc' := hused t c hc
      simp only [List.mem_append, List.mem_cons, List.not_mem_nil, or_false, not_or] at hc'
      obtain ⟨⟨-, hcf⟩, hcb, hcn, -⟩ := hc'
      simp only [Function.update_of_ne hcb]
      rw [hunlink t c hc, n2 c hcf hcb hcn]
      exact DList.insertAfter_next hcf hcn
  · rw [e', e3, e2]
    simp
  · rw [m', m3, m2]
  · rw [p'.1, p3.1, p2]
  · rw [p'.2.1, p3.2.1, p2]

end Layout

namespace PoolInv

variable {s : Kernel} {mp td f m : ℕ} {l r pre post limbo stale : List ℕ} {rl : ℕ → List ℕ}

theorem allocBlockAlign {reqAlign req shift b n : ℕ}
    (i : PoolInv s mp (l ++ f :: m :: r) (pre ++ f :: post) rl limbo stale) (htd : td ≠ 0)
    (hshift : alignShift reqAlign f = shift) (hs1 : 48 ≤ shift) (hs2 : shift % 16 = 0)
    (hreq : 48 ≤ req) (hal : req % 16 = 0) (hrest : req + shift + 96 ≤ s.heap.blocksize f)
    (hb : f + shift = b) (hn : b + req = n) :
    PoolInv (s.allocBlockAlign td mp f req reqAlign) mp (l ++ f :: b :: n :: m :: r)
      (pre ++ f :: n :: post) (Function.update rl td (b :: rl td)) limbo stale := by
  obtain ⟨hf, hfree, -⟩ := i.mem_of_free (b := f) (by simp)
  have hlay := i.toLayout.allocBlockAlign htd hshift hs1 hs2 hreq hal hrest hb hn
  have hfb := i.phys.bounds hf
  have hfm := i.phys.next_eq
  have hd := i.phys.nodup
  have hmem : ∀ c ∈ l ++ f :: m :: r, c ∈ l ++ f :: b :: n :: m :: r := by
    intro c hc
    simp only [List.mem_append, List.mem_cons] at hc ⊢
    grind
  have hnew : ∀ c ∈ l ++ f :: m :: r, c ≠ b ∧ c ≠ n := by
    intro c hc
    constructor
    · rintro rfl
      exact i.phys.tiles.notMem_of_interior hf (by omega) (by omega) hc
    · rintro rfl
      exact i.phys.tiles.notMem_of_interior hf (by omega) (by omega) hc
  have htask : ∀ c ∈ l ++ f :: m :: r, (s.allocBlockAlign td mp f req reqAlign).heap.BlockIsFree c →
      s.heap.BlockIsFree c := by
    intro c hc hcf
    have hc' := (hlay.mem_free c).mpr ⟨hmem c hc, hcf⟩
    refine ((i.mem_free c).mp ?_).2
    have hcn := (hnew c hc).2
    simpa [hcn] using hc'
  refine ⟨hlay, ?_⟩
  have hbused : ¬(s.allocBlockAlign td mp f req reqAlign).heap.BlockIsFree b := 
    (hlay.of_res (t := td) (b := b) (by simp)).2.2
  have hsplit : l ++ f :: b :: n :: m :: r = (l ++ [f]) ++ b :: n :: m :: r := by simp
  have hold : l ++ f :: m :: r = (l ++ [f]) ++ m :: r := by simp
  have hap := i.apart
  rw [hold] at hap
  rw [hsplit]
  apply Apart.append_cons_of_used hbused
  · exact hap.left.mono fun c hc => htask c (hold ▸ List.mem_append_left _ hc)
  · apply List.isChain_cons_cons.mpr
    constructor
    · intro hnm
      exact i.apart.next_used hfree (htask m (by simp) hnm.2)
    · exact hap.right.mono fun c hc => htask c (hold ▸ List.mem_append_right _ hc)

end PoolInv

/-! ## The rest is absorbed -/

namespace PoolInv

variable {s s' : Kernel} {mp td : ℕ} {bs bs' fl' pre post limbo limbo' stale stale' : List ℕ}
  {rl rl' : ℕ → List ℕ}

/-- Free blocks in front of all changed links are still on the free list. -/
theorem mem_free_of_walk {f : ℕ} (i : PoolInv s mp bs (pre ++ f :: post) rl limbo stale)
    (i' : PoolInv s' mp bs' fl' rl' limbo' stale')
    (hhead : (s'.pools mp).poolFreeListPtr = (s.pools mp).poolFreeListPtr)
    (hnext : ∀ c ∈ pre, s'.heap.nextblock c = s.heap.nextblock c) : f ∈ fl' := by
  have h0 := i.free.at
  have hwalk : Linked s'.heap.nextblock (s'.pools mp).poolFreeListPtr pre f := by
    rw [hhead]
    exact h0.1.congr hnext
  obtain ⟨t, rfl, ht⟩ := i'.free.linked.append_of_linked hwalk h0.2.2.2.2.2.2.2.2.2.2.1
  exact List.mem_append_right _ (ht.head_mem h0.2.2.2.2.2.2.2.2.2.1)

/-- If the pool is well formed when the headers of the leading piece and of the allocated
block have been written, both are blocks of the pool. -/
theorem placeAligned_pieces {s0 : Kernel} {f b shift size nextFree : ℕ}
    (i : PoolInv s mp bs (pre ++ f :: post) rl limbo stale)
    (i' : PoolInv (s0.placeAligned td mp f b shift size nextFree) mp bs' fl' rl' limbo' stale')
    (hb : add32 f shift = b) (hne : f ≠ b) (htd : td ≠ 0) (hpools : s0.pools = s.pools)
    (hnext : ∀ c ∈ pre, c ≠ b → s0.heap.nextblock c = s.heap.nextblock c) :
    f + shift = b ∧ 48 ≤ size ∧ b + size ≤ (s.pools mp).poolEndPtr + 48 ∧
      ∃ l r, bs' = l ++ f :: b :: r := by
  have hblk := s0.placeAligned_block td mp f b shift size nextFree hne
  have hpool := s0.placeAligned_pool td mp f b shift size nextFree
  have hfpre : f ∉ pre := i.free.at.2.2.2.2.1
  have hnext' : ∀ c ∈ pre, c ≠ b →
      (s0.placeAligned td mp f b shift size nextFree).heap.nextblock c = s.heap.nextblock c := by
    intro c hc hcb
    have hcf : c ≠ f := by
      rintro rfl
      exact hfpre hc
    rw [s0.placeAligned_nextblock td mp f b shift hcf hcb]
    exact hnext c hc hcb
  obtain ⟨s', hs'⟩ : ∃ s', s0.placeAligned td mp f b shift size nextFree = s' := ⟨_, rfl⟩
  rw [hs'] at hblk hpool hnext' i'
  rw [hpools] at hpool
  -- the allocated block is not on the free list, so the walk reaches the leading piece
  have hpre : b ∉ pre := by
    intro hm
    obtain ⟨p, q, rfl⟩ := List.append_of_mem hm
    have hfl : p ++ b :: q ++ f :: post = p ++ b :: (q ++ f :: post) := by simp
    rw [hfl] at i
    have hbp : b ∉ p := i.free.at.2.2.2.2.1
    have hmem := i.mem_free_of_walk i' hpool.2.2 fun c hc => hnext' c (by simp [hc])
      (by rintro rfl; exact hbp hc)
    exact htd (hblk.2.1.symm.trans (i'.mem_of_free hmem).2.1)
  have hf := i.mem_free_of_walk i' hpool.2.2 fun c hc => hnext' c hc (by rintro rfl; exact hpre hc)
  obtain ⟨hfbs, -, hfe⟩ := i'.mem_of_free hf
  have hfb := i'.phys.bounds hfbs
  obtain ⟨l, m, r, rfl⟩ := i'.phys.exists_next hfbs hfe
  have hfm := i'.phys.next_eq
  rw [hblk.2.2.1] at hfm hfb
  have hadd : f + shift = b := by
    rw [← hb, add32_of_lt]
    omega
  have hmb : m = b := by omega
  subst hmb
  have hbb := i'.phys.bounds (b := m) (by simp)
  rw [hblk.2.2.2, hpool.2.1] at hbb
  exact ⟨hadd, hbb.2.2.1, hbb.2.2.2.2.1, l, r, rfl⟩

/-- A pool that is well formed after an aligned allocation shows that the rest has been split
off. -/
theorem rest_of_allocBlockAlign {a f req : ℕ} (i : PoolInv s mp bs (pre ++ f :: post) rl limbo stale)
    (htd : td ≠ 0) (hs : 96 ≤ alignShift a f) (hs32 : alignShift a f < 2 ^ 32)
    (hreq : req < 2 ^ 32) (hfit : FitsAligned s req a f)
    (i' : PoolInv (s.allocBlockAlign td mp f req a) mp bs' fl' rl' limbo' stale') :
    req ≠ 0 ∧ req + alignShift a f + 96 ≤ s.heap.blocksize f := by
  obtain ⟨hf, hfree, hfe⟩ := i.mem_of_free (b := f) (by simp)
  have hfb := i.phys.bounds hf
  unfold FitsAligned at hfit
  obtain ⟨shift, hshift⟩ : ∃ k, alignShift a f = k := ⟨_, rfl⟩
  obtain ⟨b, hb⟩ : ∃ b, add32 f shift = b := ⟨_, rfl⟩
  obtain ⟨rest, hrest⟩ : ∃ k, sub32 (sub32 (s.heap.blocksize f) req) shift = k := ⟨_, rfl⟩
  rw [hshift] at hs hs32 hfit ⊢
  have hne : f ≠ b := by
    rw [← hb]
    unfold add32
    omega
  have hrestpos : rest = s.heap.blocksize f - add32 req shift := by
    rw [← hrest]
    unfold add32 at hfit ⊢
    unfold sub32
    omega
  have hnpos : add32 b req = f + add32 req shift := by
    rw [← hb]
    unfold add32 at hfit ⊢
    omega
  by_cases hle : 2 * mqxMinMemoryStorageSize ≤ rest
  · -- the rest is split off: the sizes of both pieces are those of real blocks
    have h96 : 96 ≤ rest := hle
    rw [s.allocBlockAlign_split td mp f b req shift hshift hb rfl hrest hle] at i'
    have hnext : ∀ c ∈ pre, c ≠ b →
        ((s.setPrevblock b f).cutRest f b req rest).heap.nextblock c = s.heap.nextblock c := by
      intro c hc hcb
      have hcn : c ≠ add32 b req := by
        rintro rfl
        have hcbs := (i.mem_of_free (b := add32 b req) (by simp [hc])).1
        have hcf : add32 b req ≠ f := by
          intro he
          exact i.free.at.2.2.2.2.1 (he ▸ hc)
        rw [hnpos] at hcf hcbs
        exact i.phys.tiles.notMem_of_interior hf (by omega) (by omega) hcbs
      rw [Kernel.cutRest_nextblock _ _ _ _ hcn hcb]
      rfl
    obtain ⟨hadd, h48, hend, -⟩ := i.placeAligned_pieces i' hb hne htd rfl hnext
    have hsum : add32 req shift = req + shift := add32_of_lt (by omega)
    omega
  · -- the rest is absorbed: the right neighbour still names the leading piece
    exfalso
    rw [s.allocBlockAlign_absorb td mp f b req shift hshift hb hrest hle] at i'
    obtain ⟨size, hsize⟩ : ∃ k, add32 req rest = k := ⟨_, rfl⟩
    rw [hsize] at i'
    obtain ⟨hadd, h48, hend, l, r, rfl⟩ := i.placeAligned_pieces i' hb hne htd rfl
      fun c _ _ => rfl
    obtain ⟨l0, m, r0, rfl⟩ := i.phys.exists_next hf hfe
    have hm := i.phys.next_eq
    have hmb := i.phys.bounds (b := m) (by simp)
    have hpos : b + size = m := by
      rw [← hm, ← hadd]
      rw [← hsize, hrestpos] at hend ⊢
      unfold add32 at hfit hend ⊢
      omega
    have hprev : ((s.setPrevblock b f).placeAligned td mp f b shift size
        (s.heap.nextblock f)).heap.prevblock m = f := by
      rw [Kernel.placeAligned_prevblock _ _ _ _ _ _ (show m ≠ b by omega), Kernel.setPrevblock_heap]
      exact (Function.update_of_ne (show m ≠ b by omega) _ _).trans i.phys.prev_next_eq
    have hbsize := ((s.setPrevblock b f).placeAligned_block td mp f b shift size
      (s.heap.nextblock f) hne).2.2.2
    have hpool := (s.setPrevblock b f).placeAligned_pool td mp f b shift size (s.heap.nextblock f)
    obtain ⟨s', hs'⟩ : ∃ s', (s.setPrevblock b f).placeAligned td mp f b shift size
      (s.heap.nextblock f) = s' := ⟨_, rfl⟩
    rw [hs'] at i' hprev hbsize hpool
    have hbe : b ≠ (s'.pools mp).poolEndPtr := by
      rw [hpool.2.1, Kernel.setPrevblock_pools]
      omega
    obtain ⟨l1, m1, r1, h1⟩ := i'.phys.exists_next (b := b) (by simp) hbe
    rw [h1] at i'
    have hm1 := i'.phys.next_eq
    rw [hbsize, hpos] at hm1
    have hp1 := i'.phys.prev_next_eq
    rw [← hm1, hprev] at hp1
    exact hne hp1

end PoolInv

/-! ## The search -/

namespace PoolInv

variable {s : Kernel} {mp : ℕ} {bs fl limbo stale : List ℕ} {rl : ℕ → List ℕ}

/-- One turn of the aligned search, from a free block. -/
theorem memAllocAlignResume_cases (i : PoolInv s mp bs fl rl limbo stale) {a f : ℕ} (req td : ℕ)
    (hf : f ∈ fl) (h16 : 16 ∣ a) (hd : a ∣ 2 ^ 32) (hlt : a < 2 ^ 32) :
    memAllocAlignResume (atWindow s mp f) req a td mp f =
      if FitsAligned s req a f then
        allocReturn ((atWindow s mp f).allocBlockAlign td mp f req a)
          (userAreaPtr (add32 f (alignShift a f))) .ok [f]
      else memAllocWindow (atWindow s mp f) mp (s.heap.nextblock f) [f] := by
  obtain ⟨hbs, hfree, -⟩ := i.mem_of_free hf
  have hfb := i.phys.bounds hbs
  obtain ⟨-, hs, -⟩ := alignShift_spec h16 hd hlt hfb.1 (by omega)
  have hptr := searchPtr_atWindow s mp f
  have hua : MemoryAligned (userAreaPtr (add32 f (alignShift a f))) := by
    unfold userAreaPtr add32 userAreaOffset
    rw [memoryAligned_iff]
    omega
  have h0 : f ≠ 0 := by omega
  have hal : MemoryAligned f := hfb.1
  have hfree' : (atWindow s mp f).heap.BlockIsFree f := hfree
  have hsum : (atWindow s mp f).heap.ValidChecksum f := i.sum_of_free hf
  have hfits : FitsAligned (atWindow s mp f) req a f ↔ FitsAligned s req a f := Iff.rfl
  unfold memAllocAlignResume
  simp only
  rw [← searchPtr, hptr]
  simp only [h0, hal, hfree', hsum, hua, hfits, not_true, or_self, if_false, nextblock_atWindow]

/-- The aligned search reports that no block fits, or cuts the first one that does. -/
theorem memAllocInternalAlign_cases (i : PoolInv s mp bs fl rl [] []) {reqAlign : ℕ} (size td : ℕ)
    (hlt : reqAlign < 2 ^ 32) (hacc : ¬(reqAlign ≠ 0 ∧ reqAlign &&& (reqAlign - 1) ≠ 0)) :
    (∃ s', memAllocInternalAlign s size reqAlign td mp = some ((0, .outOfMemory), s') ∧
      PoolInv s' mp bs fl rl [] [] ∧
      (∀ c ∈ fl, ¬FitsAligned s (adjustSize size) (adjustAlign reqAlign) c) ∧
      (s'.pools mp).poolHighestMemoryUsed = (s.pools mp).poolHighestMemoryUsed) ∨
    ∃ pre f post, fl = pre ++ f :: post ∧
      (∀ c ∈ pre, ¬FitsAligned s (adjustSize size) (adjustAlign reqAlign) c) ∧
      FitsAligned s (adjustSize size) (adjustAlign reqAlign) f ∧
      memAllocInternalAlign s size reqAlign td mp =
        some ((userAreaPtr (add32 f (alignShift (adjustAlign reqAlign) f)), .ok),
          (atWindow s mp f).allocBlockAlign td mp f (adjustSize size) (adjustAlign reqAlign)) := by
  obtain ⟨h16, hd, halt⟩ := adjustAlign_spec hlt hacc
  have hlen := i.phys.length_lt i.free.nodup fun b hb => (i.mem_of_free hb).1
  have hhead : (s.pools mp).poolFreeListPtr = fl.headD 0 := i.free.head_eq
  obtain ⟨n, h⟩ := searchRun_window (f := [])
    (fun s b => memAllocAlignResume s (adjustSize size) (adjustAlign reqAlign) td mp b)
    (FitsAligned s (adjustSize size) (adjustAlign reqAlign)) i (by
      intro b hb hfit
      refine ⟨[b], ?_⟩
      have he := i.memAllocAlignResume_cases (adjustSize size) td hb h16 hd halt
      rw [if_neg hfit] at he
      exact he) maxSteps [] (by omega)
  unfold memAllocInternalAlign memAllocBegin
  rw [if_neg hacc, hhead]
  rcases h with ⟨hnone, hrun⟩ | ⟨pre, f, post, rfl, hpre, hfit, hrun⟩
  · left
    rw [hrun]
    have hptr := searchPtr_atWindow s mp 0
    unfold memAllocAlignResume
    simp only
    rw [← searchPtr, hptr]
    refine ⟨_, rfl, (i.inv_atWindow 0).setPool rfl rfl rfl, hnone, ?_⟩
    simp [allocReturn, Kernel.setPool, atWindow]
  · right
    refine ⟨pre, f, post, rfl, hpre, hfit, ?_⟩
    have he := i.memAllocAlignResume_cases (adjustSize size) td (f := f) (by simp) h16 hd halt
    rw [if_pos hfit] at he
    rw [hrun, he]
    rfl

end PoolInv

/-! ## Aligned allocation on a well formed pool -/

/-- What an aligned allocation should leave behind: a well formed pool, in which the block
behind the returned one names it as its left neighbour and the checker finds no error. -/
def StaysWellFormed (s : Kernel) (mp ptr : ℕ) : Prop :=
  WellFormed s mp ∧ s.heap.prevblock (s.heap.nextPhys (getMemblockPtr ptr)) = getMemblockPtr ptr ∧
    ∃ s', memTestPool s mp = some (.ok, s')

/-- The first block of the free list that fits. -/
def FirstFit (s : Kernel) (mp requestedSize reqAlign f : ℕ) : Prop :=
  ∃ fl, (s.freeList mp).Represents 0 fl ∧
    fl.find? (fun c => FitsAligned s requestedSize reqAlign c) = some f

/-- The request is a real block size, and enough of the block is left behind it to be split
off. -/
def LeavesRest (s : Kernel) (requestedSize reqAlign f : ℕ) : Prop :=
  requestedSize ≠ 0 ∧ requestedSize + alignShift reqAlign f + 2 * mqxMinMemoryStorageSize ≤
    s.heap.blocksize f

instance (s : Kernel) (requestedSize reqAlign f : ℕ) :
    Decidable (LeavesRest s requestedSize reqAlign f) :=
  inferInstanceAs (Decidable (_ ∧ _))

theorem adjustSize_lt (size : ℕ) : adjustSize size < 2 ^ 32 :=
  lt_of_le_of_lt (Nat.sub_le _ _) (Nat.mod_lt _ (by decide))

theorem FirstFit.intro {s : Kernel} {mp f req a : ℕ} {bs pre post : List ℕ} {rl : ℕ → List ℕ}
    (i : PoolInv s mp bs (pre ++ f :: post) rl [] [])
    (hpre : ∀ c ∈ pre, ¬FitsAligned s req a c) (hfit : FitsAligned s req a f) :
    FirstFit s mp req a f := by
  refine ⟨_, i.free, ?_⟩
  rw [List.find?_append, List.find?_eq_none.mpr (by simpa using hpre)]
  simp [hfit]

/-- An aligned allocation leaves the pool well formed exactly when the rest of the block it
is taken from is split off. -/
theorem memAllocInternalAlign_wellFormed_iff {s s' : Kernel} {mp td size reqAlign ptr : ℕ}
    (h : WellFormed s mp) (htd : td ≠ 0) (halign : reqAlign < 2 ^ 32)
    (hcall : memAllocInternalAlign s size reqAlign td mp = some ((ptr, .ok), s')) :
    StaysWellFormed s' mp ptr ↔
      ∃ f, FirstFit s mp (adjustSize size) (adjustAlign reqAlign) f ∧
        LeavesRest s (adjustSize size) (adjustAlign reqAlign) f := by
  obtain ⟨bs, fl, rl, i⟩ := h
  have hacc : ¬(reqAlign ≠ 0 ∧ reqAlign &&& (reqAlign - 1) ≠ 0) := by
    intro hbad
    simp [memAllocInternalAlign, hbad] at hcall
  obtain ⟨h16, hd, hlt⟩ := adjustAlign_spec halign hacc
  rcases i.memAllocInternalAlign_cases size td halign hacc with ⟨s1, he, -⟩ |
    ⟨pre, f, post, rfl, hpre, hfit, he⟩
  · rw [he] at hcall
    simp at hcall
  rw [he] at hcall
  obtain ⟨hr, rfl⟩ := Prod.mk.inj (Option.some.inj hcall)
  obtain ⟨rfl, -⟩ := Prod.mk.inj hr
  obtain ⟨hf, hfree, hfe⟩ := i.mem_of_free (b := f) (by simp)
  have hfb := i.phys.bounds hf
  obtain ⟨hs96, hs16, hs32⟩ := alignShift_spec h16 hd hlt hfb.1 (by omega)
  have hfirst : FirstFit s mp (adjustSize size) (adjustAlign reqAlign) f := .intro i hpre hfit
  have hunique : ∀ f', FirstFit s mp (adjustSize size) (adjustAlign reqAlign) f' → f' = f := by
    rintro f' ⟨fl', hrep, hfind⟩
    obtain ⟨fl, hrep', hfind'⟩ := hfirst
    rw [hrep.unique hrep', hfind'] at hfind
    exact (Option.some.inj hfind).symm
  constructor
  · rintro ⟨⟨bs', fl', rl', i'⟩, -, -⟩
    exact ⟨f, hfirst, (i.inv_atWindow f).rest_of_allocBlockAlign htd hs96 hs32
      (adjustSize_lt size) hfit i'⟩
  · rintro ⟨f', hf', hreq, hrest⟩
    obtain rfl := hunique f' hf'
    rw [minSize_eq] at hrest
    obtain ⟨h48, hal⟩ := adjustSize_spec hreq
    obtain ⟨l, m, r, rfl⟩ := i.phys.exists_next hf hfe
    have hinv := (i.inv_atWindow f').allocBlockAlign htd rfl (by omega) hs16 h48 hal hrest rfl rfl
    have hadd : add32 f' (alignShift (adjustAlign reqAlign) f') =
      f' + alignShift (adjustAlign reqAlign) f' := add32_of_lt (by omega)
    have hwf : WellFormed _ mp := ⟨_, _, _, hinv⟩
    refine ⟨hwf, ?_, hwf.memTestPool_ok⟩
    rw [hadd, getMemblockPtr_userAreaPtr (by omega)]
    obtain ⟨hb, hbe, -⟩ := hinv.of_res (t := td)
      (b := f' + alignShift (adjustAlign reqAlign) f') (by simp)
    exact hinv.phys.prev_nextPhys hb hbe

theorem memAllocInternalAlign_wellFormed_mediumPool : ∃ ptr s',
    memAllocInternalAlign mediumPool 16 16 1 1 = some ((ptr, .ok), s') ∧
      StaysWellFormed s' 1 ptr := by
  have hok : (memAllocInternalAlign mediumPool 16 16 1 1).map (fun r => r.1) =
      some (0x10c0, .ok) := by
    decide +kernel
  obtain ⟨⟨⟨ptr, code⟩, s'⟩, he, hr⟩ := Option.map_eq_some_iff.mp hok
  obtain ⟨rfl, rfl⟩ := Prod.mk.inj hr
  refine ⟨_, s', he, (memAllocInternalAlign_wellFormed_iff mediumPool_wellFormed (by decide)
    (by decide) he).mpr ⟨0x1000, ⟨[0x1000], ?_, by decide +kernel⟩, by decide +kernel⟩⟩
  have hnext : (mediumPool.freeList 1).next 0x1000 = 0 := by decide +kernel
  exact ⟨⟨by decide +kernel, hnext⟩, ⟨by decide +kernel, trivial⟩, by decide, by decide⟩

/-- The rest of the only block of the small pool is absorbed. The end sentinel behind the
allocated block still names the leading piece, and the checker reports a corrupt pool. -/
theorem memAllocInternalAlign_corrupts_smallPool : ∃ ptr s', WellFormed smallPool 1 ∧
    memAllocInternalAlign smallPool 16 16 1 1 = some ((ptr, .ok), s') ∧
      ¬StaysWellFormed s' 1 ptr := by
  have hrun : ((memAllocInternalAlign smallPool 16 16 1 1).bind fun r =>
      (memTestPool r.2 1).map fun t => (r.1.2, t.1)) = some (.ok, .corruptStoragePool) := by
    decide +kernel
  obtain ⟨⟨⟨ptr, code⟩, s'⟩, he, ht⟩ := Option.bind_eq_some_iff.mp hrun
  obtain ⟨⟨c, s2⟩, htest, hc⟩ := Option.map_eq_some_iff.mp ht
  obtain ⟨rfl, rfl⟩ := Prod.mk.inj hc
  refine ⟨ptr, s', smallPool_wellFormed, he, ?_⟩
  rintro ⟨-, -, s3, hok⟩
  rw [hok] at htest
  simp at htest

end Mqx.Mem
