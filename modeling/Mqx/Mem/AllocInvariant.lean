import Mqx.Mem.Invariant

/-!
# Allocation keeps a pool well formed

The split and the hand-over of a block are treated apart. A split is completed by
giving the front piece its size, which the code does when it hands the block over;
the two orders of stores lead to the same state.
-/

namespace Mqx.Mem

open PointerList

namespace Kernel

variable (s : Kernel) (td mp block size : ℕ)

@[simp] theorem rememberHighest_heap : (s.rememberHighest mp block).heap = s.heap := by
  unfold rememberHighest
  dsimp only
  split_ifs <;> rfl

@[simp] theorem rememberHighest_memoryResourceList :
    (s.rememberHighest mp block).memoryResourceList = s.memoryResourceList := by
  unfold rememberHighest
  dsimp only
  split_ifs <;> rfl

theorem rememberHighest_pool : (s.rememberHighest mp block).pools mp =
    { s.pools mp with
      poolHighestMemoryUsed := ((s.rememberHighest mp block).pools mp).poolHighestMemoryUsed } := by
  unfold rememberHighest
  dsimp only
  split_ifs <;> simp [setPool]

/-- Give a block its size and checksum. -/
def resize : Kernel :=
  let h := { s.heap with blocksize := Function.update s.heap.blocksize block size }
  { s with heap := h.calcChecksum block }

/-- The stores of `takeBlock` to block headers, all at once. -/
theorem takeBlock_heap : (s.takeBlock td mp block size).heap =
    { taskNumber := Function.update s.heap.taskNumber block td
      memType := Function.update s.heap.memType block 0
      blocksize := Function.update s.heap.blocksize block size
      memPoolPtr := Function.update s.heap.memPoolPtr block mp
      nextblock := Function.update ((s.freeList mp).unlink 0 block).next block
        (s.memoryResourceList td)
      prevblock := s.heap.prevblock
      checksum := Function.update s.heap.checksum block
        ((size + s.heap.prevblock block + td) % 2 ^ 32)
      userArea := ((s.freeList mp).unlink 0 block).prev } := by
  simp [takeBlock, linkOntoTask, setPool, setFreeList, freeList, Storeblocks.calcChecksum,
    Storeblocks.headerSum]

theorem takeBlock_memoryResourceList : (s.takeBlock td mp block size).memoryResourceList =
    Function.update s.memoryResourceList td (userAreaPtr block) := by
  simp [takeBlock, linkOntoTask, setPool, setFreeList]

/-- The stores of `takeBlock` to the pool. -/
theorem takeBlock_pool : ((s.takeBlock td mp block size).pools mp).poolPtr = (s.pools mp).poolPtr ∧
    ((s.takeBlock td mp block size).pools mp).poolEndPtr = (s.pools mp).poolEndPtr ∧
    ((s.takeBlock td mp block size).pools mp).poolFreeListPtr =
      ((s.freeList mp).unlink 0 block).head ∧
    ((s.takeBlock td mp block size).pools mp).poolAllocCurrentBlock =
      ((s.freeList mp).unlink 0 block).head ∧
    ((s.takeBlock td mp block size).pools mp).poolFreeCurrentBlock =
      if block = (s.pools mp).poolFreeCurrentBlock then ((s.freeList mp).unlink 0 block).head
      else (s.pools mp).poolFreeCurrentBlock := by
  simp only [takeBlock, linkOntoTask]
  rw [rememberHighest_pool]
  simp [setPool, setFreeList, freeList, Storeblocks.calcChecksum]

theorem takeBlock_resize :
    (s.resize block size).takeBlock td mp block size = s.takeBlock td mp block size := by
  simp [resize, takeBlock, Storeblocks.calcChecksum, Storeblocks.headerSum, setFreeList, freeList]

/-- The stores of a completed split to block headers. -/
theorem resize_splitBlock_heap (requestedSize nextBlockSize next nextNext : ℕ)
    (hn : add32 block requestedSize = next) (hnn : add32 next nextBlockSize = nextNext)
    (hne : next ≠ nextNext) (hbn : block ≠ next) (hbnn : block ≠ nextNext) :
    ((s.splitBlock mp block requestedSize nextBlockSize).resize block requestedSize).heap =
    { taskNumber := Function.update s.heap.taskNumber next 0
      memType := s.heap.memType
      blocksize := Function.update (Function.update s.heap.blocksize next nextBlockSize) block
        requestedSize
      memPoolPtr := s.heap.memPoolPtr
      nextblock := ((s.freeList mp).insertAfter 0 block next).next
      prevblock := Function.update (Function.update s.heap.prevblock next block) nextNext next
      checksum := Function.update (Function.update (Function.update s.heap.checksum next
        ((nextBlockSize + block + s.heap.memType next) % 2 ^ 32)) nextNext
        ((s.heap.blocksize nextNext + next + s.heap.taskNumber nextNext +
          s.heap.memType nextNext) % 2 ^ 32)) block
        ((requestedSize + s.heap.prevblock block + s.heap.taskNumber block +
          s.heap.memType block) % 2 ^ 32)
      userArea := ((s.freeList mp).insertAfter 0 block next).prev } := by
  simp [splitBlock, resize, hn, hnn, setFreeList, freeList, Storeblocks.calcChecksum,
    Storeblocks.headerSum, Storeblocks.nextPhys, hne.symm, hbn, hbnn]

theorem resize_splitBlock_pool (requestedSize nextBlockSize : ℕ) :
    ((s.splitBlock mp block requestedSize nextBlockSize).resize block size).pools mp =
    s.pools mp := by
  simp [splitBlock, resize, setFreeList, freeList, Storeblocks.calcChecksum]

end Kernel

namespace Layout

variable {s : Kernel} {mp b : ℕ} {bs l r f g limbo stale : List ℕ} {rl : ℕ → List ℕ}

/-- Handing a free block to a task. -/
theorem takeBlock (i : Layout s mp bs (f ++ b :: g) rl limbo stale) {td : ℕ} (htd : td ≠ 0) :
    Layout (s.takeBlock td mp b (s.heap.blocksize b)) mp bs (f ++ g)
      (Function.update rl td (b :: rl td)) limbo stale := by
  obtain ⟨hb, hfree, hend⟩ := i.mem_of_free (b := b) (by simp)
  have hbb := i.phys.bounds hb
  have hunlink := i.free.unlink
  obtain ⟨hp1, hp2, hp3, -, -⟩ := s.takeBlock_pool td mp b (s.heap.blocksize b)
  have hbf : b ∉ f ++ g := by
    have := i.free.at
    simp only [List.mem_append, not_or]
    exact ⟨this.2.2.2.2.1, this.2.2.2.2.2.1⟩
  have hne : ∀ t c, c ∈ rl t → c ≠ b := by
    rintro t c hc rfl
    exact i.notMem_res hfree t hc
  -- `NEXTBLOCK` of blocks in use is not a free list link
  have hnext : ∀ c, ¬s.heap.BlockIsFree c → c ≠ b →
      Function.update ((s.freeList mp).unlink 0 b).next b (s.memoryResourceList td) c =
        s.heap.nextblock c := by
    intro c hc hcb
    rw [Function.update_of_ne hcb]
    exact i.free.unlink_next (by simp) (i.notMem_free hc)
  constructor
  · rw [hp1, hp2, Kernel.takeBlock_heap]
    refine i.phys.retag (b := b) ?_ ?_ rfl (fun c hc => Or.inl hc) ?_
    · intro c _ hc
      constructor <;> simp [hc]
    · simp
    · simp [Storeblocks.ValidChecksum, Storeblocks.headerSum]
  · refine hunlink.congr ?_ ?_ ?_
    · simpa [Kernel.freeList] using hp3
    · intro c hc
      have hcb : c ≠ b := by rintro rfl; exact hbf hc
      simp [Kernel.freeList, Kernel.takeBlock_heap, hcb]
    · intro c _
      simp [Kernel.freeList, Kernel.takeBlock_heap]
  · intro c
    have hold := i.mem_free c
    by_cases hc : c = b
    · subst hc
      simp only [hbf, false_iff, Kernel.takeBlock_heap, Storeblocks.BlockIsFree,
        Function.update_self]
      exact fun h => htd h.2
    · simp only [List.mem_append, List.mem_cons, hc, false_or] at hold ⊢
      simp only [hold, Kernel.takeBlock_heap, Storeblocks.BlockIsFree, Function.update_of_ne hc]
  · rw [hp2, Kernel.takeBlock_heap]
    simpa [Storeblocks.BlockIsFree, hend.symm] using i.end_used
  · intro t
    have hcongr : ResourceList (s.takeBlock td mp b (s.heap.blocksize b)).heap
        (s.memoryResourceList t) (rl t) := by
      refine i.res_congr fun c hc => ?_
      rw [Kernel.takeBlock_heap]
      exact hnext c (i.of_res hc).2.2 (hne t c hc)
    rw [Kernel.takeBlock_memoryResourceList]
    by_cases ht : t = td
    · subst ht
      simp only [Function.update_self]
      rw [ResourceList.cons (by omega)]
      simpa [Kernel.takeBlock_heap] using hcongr
    · simp only [Function.update_of_ne ht]
      exact hcongr
  · intro t
    exact nodup_update_cons (i.res_nodup t) (i.notMem_res hfree t)
  · intro t c hc
    rw [Kernel.takeBlock_heap]
    rcases mem_update_cons.mp hc with ⟨rfl, rfl⟩ | hc
    · simp
    · simpa [hne t c hc] using i.res_task t c hc
  · exact i.limbo_nodup
  · intro c hc t hm
    rcases mem_update_cons.mp hm with ⟨rfl, -⟩ | hm
    · exact i.notMem_limbo hfree hc
    · exact i.limbo_notMem c hc t hm
  · exact i.stale_limbo
  · intro c
    rw [owned_update_cons, hp2, Kernel.takeBlock_heap]
    by_cases hc : c = b
    · subst hc
      simp [Storeblocks.BlockIsFree, hb, hend, htd]
    · simp only [hc, false_or, i.owned c, Storeblocks.BlockIsFree, Function.update_of_ne hc]
  · intro c hc
    rw [Kernel.takeBlock_heap]
    rcases owned_update_cons.mp hc with rfl | ho
    · simp
    · have hcb : c ≠ b := by
        rintro rfl
        exact ((i.owned c).mp ho).2.2 hfree
      simpa [hcb] using i.pool c ho

/-- Cutting a free block in two free blocks. -/
theorem splitBlock {m n req : ℕ} (rest : ℕ) (i : Layout s mp (l ++ b :: m :: r) (f ++ b :: g) rl limbo stale)
    (hreq : 48 ≤ req) (hal : req % 16 = 0) (hrest : 48 ≤ rest)
    (hsum : req + rest = s.heap.blocksize b) (hn : b + req = n) :
    Layout ((s.splitBlock mp b req rest).resize b req) mp (l ++ b :: n :: m :: r)
      (f ++ b :: n :: g) rl limbo stale := by
  obtain ⟨hb, hfree, hend⟩ := i.mem_of_free (b := b) (by simp)
  have hbb := i.phys.bounds hb
  have hbm := i.phys.next_eq
  have hnadd : add32 b req = n := by rw [add32_of_lt] <;> omega
  have hmadd : add32 n rest = m := by rw [add32_of_lt] <;> omega
  have hnbs : n ∉ l ++ b :: m :: r :=
    i.phys.tiles.notMem_of_interior hb (by omega) (by omega)
  have hnf : n ∉ f ++ b :: g := fun hm => hnbs (i.mem_of_free hm).1
  have hnb : n ≠ b := by omega
  have hmb : m ≠ b := by omega
  have hmn : m ≠ n := by omega
  have hheap := s.resize_splitBlock_heap mp b req rest n m hnadd hmadd hmn.symm hnb.symm hmb.symm
  have hpool := s.resize_splitBlock_pool mp b req req rest
  have hmem : ∀ c, c ∈ l ++ b :: n :: m :: r ↔ c = n ∨ c ∈ l ++ b :: m :: r := by
    intro c
    simp only [List.mem_append, List.mem_cons]
    tauto
  have hne : ∀ c ∈ l ++ b :: m :: r, c ≠ n := by
    rintro c hc rfl
    exact hnbs hc
  have hend' : (s.pools mp).poolEndPtr ≠ n := hne _ i.phys.end_mem
  constructor
  · rw [hpool, hheap]
    refine i.phys.split ?_ ?_ ?_ ?_ ?_ ?_ ?_ ?_ ?_ ?_ ?_
    · intro c hc
      obtain ⟨hc, hcb, hcm⟩ := i.phys.ne_pair hc
      have hcn := hne c hc
      constructor <;> simp [hcn, hcb, hcm]
    all_goals simp [Storeblocks.ValidChecksum, Storeblocks.headerSum, hnb, hmb, hmn, hnb.symm,
      hmb.symm, hmn.symm]
    all_goals omega
  · apply (i.free.insertAfter hnf (by omega)).congr
    · simp [Kernel.freeList, hpool]
    · simp [Kernel.freeList, hheap]
    · simp [Kernel.freeList, hheap]
  · intro c
    have hold := i.mem_free c
    rw [hmem, hheap]
    by_cases hc : c = n
    · simp [Storeblocks.BlockIsFree, hc]
    · simp only [Storeblocks.BlockIsFree, Function.update_of_ne hc, hc, false_or]
      rw [← Storeblocks.BlockIsFree, ← hold]
      simp [hc]
  · rw [hpool, hheap]
    simpa only [Storeblocks.BlockIsFree, Function.update_of_ne hend'] using i.end_used
  · intro t
    apply i.res_congr
    intro c hc
    have hused := i.of_res hc
    rw [hheap]
    apply DList.insertAfter_next
    · rintro rfl
      exact hused.2.2 hfree
    · exact hne c hused.1
  · exact i.res_nodup
  · intro t c hc
    rw [hheap]
    simpa only [Function.update_of_ne (hne c (i.of_res hc).1)] using i.res_task t c hc
  · exact i.limbo_nodup
  · exact i.limbo_notMem
  · exact i.stale_limbo
  · intro c
    rw [i.owned, hmem, hheap, hpool]
    by_cases hc : c = n
    · simp [Storeblocks.BlockIsFree, hc, hnbs]
    · simp only [Storeblocks.BlockIsFree, Function.update_of_ne hc, hc, false_or]
  · rw [hheap]
    exact i.pool

end Layout

/-- Rounding up to a multiple of the cache line wraps around to 0 or not at all. -/
theorem memoryAlignValLarger_spec {v : ℕ} (hv : v < 2 ^ 32) (h : memoryAlignValLarger v ≠ 0) :
    v ≤ memoryAlignValLarger v ∧ memoryAlignValLarger v % 16 = 0 := by
  have hdef : memoryAlignValLarger v = (v + 15) % 4294967296 - (v + 15) % 4294967296 % 16 := rfl
  rw [hdef] at h ⊢
  by_cases hwrap : v + 15 < 4294967296
  · rw [Nat.mod_eq_of_lt hwrap] at h ⊢
    omega
  · have hmod : (v + 15) % 4294967296 = v + 15 - 4294967296 := by omega
    rw [hmod] at h ⊢
    omega

/-- An adjusted size is the size of a block, unless the adjustment has wrapped around to 0. -/
theorem adjustSize_spec {size : ℕ} (h : adjustSize size ≠ 0) :
    48 ≤ adjustSize size ∧ adjustSize size % 16 = 0 := by
  have hlt : add32 size userAreaOffset < 2 ^ 32 := Nat.mod_lt _ (by decide)
  unfold adjustSize at h ⊢
  by_cases h48 : add32 size userAreaOffset < mqxMinMemoryStorageSize
  · simp only [h48, if_true] at h ⊢
    exact memoryAlignValLarger_spec (by decide) h
  · simp only [h48, if_false] at h ⊢
    obtain ⟨h1, h2⟩ := memoryAlignValLarger_spec hlt h
    rw [minSize_eq] at h48
    exact ⟨by omega, h2⟩

/-- Sizes far enough below 2^32 are adjusted without wrapping around. -/
theorem adjustSize_ne_zero {size : ℕ} (h : size + 47 < 2 ^ 32) : adjustSize size ≠ 0 := by
  have h1 : add32 size 32 = size + 32 := add32_of_lt (by omega)
  simp only [adjustSize, memoryAlignValLarger, alignAddrToLowerMem, userAreaOffset, h1,
    pspMemoryAlignment, pspCacheLineSize, minSize_eq]
  split_ifs with h2
  · rw [add32_of_lt (by omega)]
    omega
  · rw [add32_of_lt (by omega)]
    omega

/-- The two ways to serve a request from a block. -/
theorem allocBlock_cases (s : Kernel) (td mp b req : ℕ) :
    2 * mqxMinMemoryStorageSize ≤ sub32 (s.heap.blocksize b) req ∧
      s.allocBlock td mp b req = ((s.splitBlock mp b req (sub32 (s.heap.blocksize b) req)).resize b
        req).takeBlock td mp b req ∨
    sub32 (s.heap.blocksize b) req < 2 * mqxMinMemoryStorageSize ∧
      s.allocBlock td mp b req = s.takeBlock td mp b (s.heap.blocksize b) := by
  unfold Kernel.allocBlock
  by_cases hs : 2 * mqxMinMemoryStorageSize ≤ sub32 (s.heap.blocksize b) req
  · left
    simp only [hs, if_true, Kernel.takeBlock_resize, and_self]
  · right
    simp only [hs, if_false, Nat.lt_of_not_le hs, and_self]

/-- What an allocation does to the search pointers. -/
theorem allocBlock_pool (s : Kernel) (td mp b req : ℕ) :
    ((s.allocBlock td mp b req).pools mp).poolAllocCurrentBlock =
      ((s.allocBlock td mp b req).pools mp).poolFreeListPtr ∧
    ((s.allocBlock td mp b req).pools mp).poolFreeCurrentBlock =
      if b = (s.pools mp).poolFreeCurrentBlock then
        ((s.allocBlock td mp b req).pools mp).poolFreeListPtr
      else (s.pools mp).poolFreeCurrentBlock := by
  rcases allocBlock_cases s td mp b req with ⟨-, he⟩ | ⟨-, he⟩
  · rw [he]
    have hp := s.resize_splitBlock_pool mp b req req (sub32 (s.heap.blocksize b) req)
    generalize (s.splitBlock mp b req (sub32 (s.heap.blocksize b) req)).resize b req = s1 at hp ⊢
    obtain ⟨-, -, h1, h2, h3⟩ := s1.takeBlock_pool td mp b req
    rw [h1, h2, h3, hp]
    exact ⟨rfl, rfl⟩
  · rw [he]
    obtain ⟨-, -, h1, h2, h3⟩ := s.takeBlock_pool td mp b (s.heap.blocksize b)
    rw [h1, h2, h3]
    exact ⟨rfl, rfl⟩

namespace PoolInv

variable {s : Kernel} {mp b td req : ℕ} {bs f g fl limbo stale : List ℕ} {rl : ℕ → List ℕ}

/-- A fitting block is handed to the task; what is left of it takes its place on the
free list. -/
theorem allocBlock (i : PoolInv s mp bs (f ++ b :: g) rl limbo stale) (htd : td ≠ 0)
    (hreq : 48 ≤ req) (hal : req % 16 = 0) (hle : req ≤ s.heap.blocksize b) :
    ∃ bs' rest, (rest = [] ∨ rest = [b + req] ∧ req < s.heap.blocksize b) ∧
      PoolInv (s.allocBlock td mp b req) mp bs' (f ++ rest ++ g)
        (Function.update rl td (b :: rl td)) limbo stale := by
  obtain ⟨hb, hfree, hend⟩ := i.mem_of_free (b := b) (by simp)
  have hbb := i.phys.bounds hb
  have hsub : sub32 (s.heap.blocksize b) req = s.heap.blocksize b - req :=
    sub32_of_le hle (by omega)
  rcases allocBlock_cases s td mp b req with ⟨hsplit, he⟩ | ⟨hsplit, he⟩ <;>
    rw [he] <;> rw [hsub, minSize_eq] at hsplit
  · rw [hsub]
    obtain ⟨l, m, r, rfl⟩ := i.phys.exists_next hb hend
    have hm : ¬s.heap.BlockIsFree m := i.apart.next_used hfree
    have hbm := i.phys.next_eq
    have hcut := i.toLayout.splitBlock (s.heap.blocksize b - req) hreq hal (by omega)
      (by omega) rfl
    have hheap := s.resize_splitBlock_heap mp b req (s.heap.blocksize b - req) (b + req) m
      (add32_of_lt (by omega)) (by rw [add32_of_lt] <;> omega) (by omega) (by omega) (by omega)
    generalize (s.splitBlock mp b req (s.heap.blocksize b - req)).resize b req = s1 at hcut hheap ⊢
    have hsize : s1.heap.blocksize b = req := by simp [hheap]
    have htake := hcut.takeBlock htd
    rw [hsize] at htake
    refine ⟨_, [b + req], Or.inr ⟨rfl, by omega⟩, by simpa using htake, ?_⟩
    have htask : ∀ c, c ≠ b → c ≠ b + req →
        (s1.takeBlock td mp b req).heap.taskNumber c = s.heap.taskNumber c := by
      intro c hcb hcn
      simp [Kernel.takeBlock_heap, hheap, hcb, hcn]
    have hnew : b + req ∉ l ++ b :: m :: r :=
      i.phys.tiles.notMem_of_interior hb (by omega) (by omega)
    -- the block in use keeps its free rest apart from the left side
    refine Apart.append_cons_of_used (by simp [Kernel.takeBlock_heap, Storeblocks.BlockIsFree, htd])
      ?_ (List.isChain_cons_cons.mpr ⟨?_, ?_⟩)
    · refine i.apart.left.congr fun c hc => htask c ?_ ?_
      · exact (i.phys.ne_pair (by simp [hc])).2.1
      · rintro rfl
        exact hnew (by simp [hc])
    · rintro ⟨-, hfm⟩
      rw [Storeblocks.BlockIsFree, htask m (by omega) (by omega)] at hfm
      exact hm hfm
    · have hsuffix : Apart s.heap ([b] ++ m :: r) := i.apart.right
      refine hsuffix.right.congr fun c hc => htask c ?_ ?_
      · rintro rfl
        have hd := i.phys.nodup
        simp only [List.nodup_append, List.nodup_cons] at hd
        exact hd.2.1.1 hc
      · rintro rfl
        exact hnew (by simp at hc; simp [hc])
  · refine ⟨bs, [], Or.inl rfl, ?_⟩
    rw [List.append_nil]
    refine ⟨i.toLayout.takeBlock htd, i.apart.mono ?_⟩
    intro c _ hc
    by_cases hcb : c = b
    · rwa [hcb]
    · simpa [Kernel.takeBlock_heap, Storeblocks.BlockIsFree, hcb] using hc

/-- Loop and error pointers are not part of the invariant. -/
theorem setPool (i : PoolInv s mp bs fl rl limbo stale) {p : Mempool}
    (hptr : p.poolPtr = (s.pools mp).poolPtr) (hend : p.poolEndPtr = (s.pools mp).poolEndPtr)
    (hfree : p.poolFreeListPtr = (s.pools mp).poolFreeListPtr) :
    PoolInv (s.setPool mp p) mp bs fl rl limbo stale := by
  apply i.congr <;> simp [Kernel.setPool, hptr, hend, hfree]

/-- The pointer with which the search goes on after a window. -/
def searchPtr (s : Kernel) (mp blockPtr : ℕ) : ℕ :=
  if (s.pools mp).poolAllocCurrentBlock ≠ blockPtr then (s.pools mp).poolFreeListPtr else blockPtr

/-- One turn of the search of `_mem_alloc_internal`, when it goes on from a free block
or from the end of the list. -/
theorem memAllocResume_cases (i : PoolInv s mp bs fl rl limbo stale) (req td ptr : ℕ)
    (hptr : searchPtr s mp ptr = 0 ∨ searchPtr s mp ptr ∈ fl) :
    (searchPtr s mp ptr = 0 ∧ memAllocResume s req td mp ptr =
      allocReturn (s.setPool mp { s.pools mp with poolBlockInError := 0 }) 0 .outOfMemory []) ∨
    (searchPtr s mp ptr ∈ fl ∧ req ≤ s.heap.blocksize (searchPtr s mp ptr) ∧
      memAllocResume s req td mp ptr = allocReturn (s.allocBlock td mp (searchPtr s mp ptr) req)
        (userAreaPtr (searchPtr s mp ptr)) .ok [searchPtr s mp ptr]) ∨
    (searchPtr s mp ptr ∈ fl ∧ s.heap.blocksize (searchPtr s mp ptr) < req ∧
      memAllocResume s req td mp ptr = memAllocWindow s mp
        (s.heap.nextblock (searchPtr s mp ptr)) [searchPtr s mp ptr]) := by
  have hres : memAllocResume s req td mp ptr = memAllocResume s req td mp ptr := rfl
  conv_rhs at hres => unfold memAllocResume
  simp only at hres
  rw [← searchPtr] at hres
  rw [hres]
  generalize searchPtr s mp ptr = b at hptr
  rcases hptr with rfl | hb
  · left
    simp
  · obtain ⟨hbs, hfree, -⟩ := i.mem_of_free hb
    have hbb := i.phys.bounds hbs
    have hal : MemoryAligned b := hbb.1
    have hua : MemoryAligned (userAreaPtr b) := by
      rw [userAreaPtr_eq (by omega), memoryAligned_iff]
      omega
    have h0 : b ≠ 0 := by omega
    right
    simp only [h0, hal, hfree, hua, i.sum_of_free hb, hb, not_true, or_self, if_false, true_and]
    by_cases hle : req ≤ s.heap.blocksize b
    · simp [hle]
    · simp [hle, Nat.lt_of_not_le hle]

end PoolInv

end Mqx.Mem
