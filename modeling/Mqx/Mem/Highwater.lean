import Mqx.Library.Watermark
import Mqx.Mem.AllocAt
import Mqx.Mem.UsableSize

/-!
# The high water marks

`mem.c` raises the mark of a pool only to blocks that end below the end of the pool, so the last
block is left out when it is taken whole. In `lwmem.c` the allocation at an address takes the
end of the free block in front of the returned one for the end of the returned block.
-/

namespace Mqx
namespace Mem

open PointerList Watermark

/-- The calls of the allocator. -/
inductive PoolCall
  | alloc (size td : ℕ)
  | allocAt (size addr td : ℕ)
  | allocAlign (size reqAlign td : ℕ)
  | free (active memPtr : ℕ)

/-- The block that an allocation has returned, as address and size. -/
def handedOut (r : AllocResult × Kernel) : Option (ℕ × ℕ) × Kernel :=
  let block := getMemblockPtr r.1.1
  (if r.1.1 = 0 then none else some (block, r.2.heap.blocksize block), r.2)

/-- A pool of `mem.c` with its mark. -/
def poolComponent (mp : ℕ) : Component Kernel PoolCall where
  exec s
    | .alloc size td => (memAllocInternal s size td mp).map handedOut
    | .allocAt size addr td => (memAllocAtInternal s size addr td mp).map handedOut
    | .allocAlign size reqAlign td => (memAllocInternalAlign s size reqAlign td mp).map handedOut
    | .free active memPtr => (memFree s active memPtr).map fun r => (none, r.2)
  mark s := (s.pools mp).poolHighestMemoryUsed

namespace Kernel

/-- The first free block with the property `p`. -/
def FirstFree (s : Kernel) (mp : ℕ) (p : ℕ → Prop) : ℕ → Prop :=
  FirstOn s.heap.nextblock (s.pools mp).poolFreeListPtr 0 p

end Kernel

/-- The pool is well formed, and no sum of the call runs over the end of the address space. -/
def PoolCall.Valid (mp : ℕ) (s : Kernel) (c : PoolCall) : Prop :=
  WellFormed s mp ∧
  match c with
  | .alloc size _ => adjustSize size ≠ 0
  | .allocAt size addr _ => adjustSize size ≠ 0 ∧ addr + adjustSize size < 2 ^ 32
  | .allocAlign size reqAlign _ => adjustSize size ≠ 0 ∧ reqAlign < 2 ^ 32 ∧
      ∀ f, s.FirstFree mp (FitsAligned s (adjustSize size) (adjustAlign reqAlign)) f →
        adjustSize size + alignShift (adjustAlign reqAlign) f < 2 ^ 32
  | .free _ _ => True

namespace Kernel

/-- Where the block `b` that serves a request ends when it is cut out of the free block `free`: a
rest that is too small to be split off goes with it. -/
def servedEnd (s : Kernel) (free b req : ℕ) : ℕ :=
  if free + s.heap.blocksize free < b + req + 2 * mqxMinMemoryStorageSize then
    free + s.heap.blocksize free
  else b + req

/-- The mark reaches a block that ends at `e`: the block ends below the end of the pool, or the
mark is high enough already. -/
def MarkReaches (s : Kernel) (mp e : ℕ) : Prop :=
  e < (s.pools mp).poolEndPtr ∨ e ≤ (s.pools mp).poolHighestMemoryUsed + 1

end Kernel

/-- The mark reaches the block that the call takes, if it takes one. -/
def PoolCall.Meets (mp : ℕ) (s : Kernel) : PoolCall → Prop
  | .alloc size _ => ∀ f, s.FirstFree mp (fun c => adjustSize size ≤ s.heap.blocksize c) f →
      s.MarkReaches mp (s.servedEnd f f (adjustSize size))
  | .allocAt size addr _ => MemoryAligned (userAreaPtr (getMemblockPtr addr)) → ∀ f,
      s.FirstFree mp (FitsAt s addr (adjustSize size)) f →
      s.MarkReaches mp (s.servedEnd f (getMemblockPtr addr) (adjustSize size))
  | .allocAlign size reqAlign _ => ¬(reqAlign ≠ 0 ∧ reqAlign &&& (reqAlign - 1) ≠ 0) → ∀ f,
      s.FirstFree mp (FitsAligned s (adjustSize size) (adjustAlign reqAlign)) f →
      s.MarkReaches mp
        (s.servedEnd f (f + alignShift (adjustAlign reqAlign) f) (adjustSize size))
  | .free _ _ => True

/-- The bounds of the pool and its mark are the same. -/
structure SameArea (p p' : Mempool) : Prop where
  ptr : p'.poolPtr = p.poolPtr
  end_ : p'.poolEndPtr = p.poolEndPtr
  highest : p'.poolHighestMemoryUsed = p.poolHighestMemoryUsed

theorem SameArea.refl (p : Mempool) : SameArea p p := ⟨rfl, rfl, rfl⟩

theorem SameArea.trans {p q r : Mempool} (h : SameArea p q) (h' : SameArea q r) : SameArea p r :=
  ⟨h'.ptr.trans h.ptr, h'.end_.trans h.end_, h'.highest.trans h.highest⟩

/-- The end of an allocation: `k` bytes at `b` are remembered and linked onto the task. -/
def Served (s s' : Kernel) (td mp b k : ℕ) : Prop :=
  ∃ t : Kernel, s' = (t.rememberHighest mp b).linkOntoTask td mp b ∧
    SameArea (s.pools mp) (t.pools mp) ∧ t.heap.blocksize b = k

namespace Kernel

variable (s : Kernel) (td mp b req : ℕ)

theorem takeBlock_served (size : ℕ) : Served s (s.takeBlock td mp b size) td mp b size := by
  refine ⟨_, rfl, ?_, ?_⟩
  · constructor <;> simp [setPool, setFreeList]
  · exact Function.update_self ..

theorem splitBlock_area (rest : ℕ) :
    SameArea (s.pools mp) ((s.splitBlock mp b req rest).pools mp) := by
  constructor <;> simp [splitBlock, setFreeList]

/-- `_mem_alloc_internal`. -/
theorem allocBlock_served : Served s (s.allocBlock td mp b req) td mp b
    (if 2 * mqxMinMemoryStorageSize ≤ sub32 (s.heap.blocksize b) req then req
      else s.heap.blocksize b) := by
  unfold allocBlock
  dsimp only
  by_cases hrest : 2 * mqxMinMemoryStorageSize ≤ sub32 (s.heap.blocksize b) req
  · rw [if_pos hrest, if_pos hrest]
    obtain ⟨t, he, harea, hsize⟩ := (s.splitBlock mp b req _).takeBlock_served td mp b req
    have h := s.splitBlock_area mp b req (sub32 (s.heap.blocksize b) req)
    exact ⟨t, he, h.trans harea, hsize⟩
  · rw [if_neg hrest, if_neg hrest]
    exact s.takeBlock_served td mp b _

/-- `_mem_alloc_internal_align`. -/
theorem allocBlockAlign_served (reqAlign : ℕ) :
    Served s (s.allocBlockAlign td mp b req reqAlign) td mp (add32 b (alignShift reqAlign b))
      (if 2 * mqxMinMemoryStorageSize ≤
          sub32 (sub32 (s.heap.blocksize b) req) (alignShift reqAlign b) then req
        else add32 req (sub32 (sub32 (s.heap.blocksize b) req) (alignShift reqAlign b))) := by
  unfold allocBlockAlign
  dsimp only
  by_cases hrest : 2 * mqxMinMemoryStorageSize ≤
      sub32 (sub32 (s.heap.blocksize b) req) (alignShift reqAlign b)
  · rw [if_pos hrest, if_pos hrest]
    exact ⟨_, rfl, ⟨rfl, rfl, rfl⟩, Function.update_self ..⟩
  · rw [if_neg hrest, if_neg hrest]
    exact ⟨_, rfl, ⟨rfl, rfl, rfl⟩, Function.update_self ..⟩

theorem absorbFront_area (free freeSize size nextFree : ℕ) :
    SameArea (s.pools mp) ((s.absorbFront td mp free b freeSize size nextFree).pools mp) := by
  unfold absorbFront
  dsimp only
  by_cases hhead : free = (s.pools mp).poolFreeListPtr
  · by_cases hnext : nextFree ≠ 0
    · constructor <;> simp [hhead, hnext, setPool]
    · constructor <;> simp [hhead, hnext, setPool]
  · constructor <;> simp [hhead, setPool]

theorem absorbFront_blocksize (free freeSize size nextFree : ℕ) (h : s.heap.prevblock free ≠ b) :
    (s.absorbFront td mp free b freeSize size nextFree).heap.blocksize b = size := by
  have hsize : (s.absorbFront td mp free b freeSize size nextFree).heap.blocksize =
      Function.update (Function.update s.heap.blocksize b size) (s.heap.prevblock free)
        (add32 (Function.update s.heap.blocksize b size (s.heap.prevblock free)) freeSize) := by
    unfold absorbFront
    dsimp only
    have hprev : Function.update s.heap.prevblock b (s.heap.prevblock free) b =
      s.heap.prevblock free := Function.update_self ..
    by_cases hhead : free = (s.pools mp).poolFreeListPtr
    · by_cases hnext : nextFree ≠ 0
      · simp [hhead, hnext, setPool, Storeblocks.calcChecksum]
      · simp [hhead, hnext, setPool, Storeblocks.calcChecksum]
    · simp [hhead, setPool, Storeblocks.calcChecksum]
  rw [hsize, Function.update_of_ne h.symm, Function.update_self]

theorem cutRestAt_prevblock {free next rest : ℕ} (hn : add32 b req = next) (hnb : next ≠ b)
    (h1 : free ≠ next) (h2 : free ≠ add32 next rest) :
    (s.cutRestAt free b req rest).heap.prevblock free = s.heap.prevblock free := by
  simp only [cutRestAt, hn, Storeblocks.calcChecksum, Storeblocks.nextPhys]
  rw [Function.update_of_ne, Function.update_of_ne h1]
  rwa [Function.update_of_ne hnb, Function.update_self]

/-- `_mem_alloc_at_internal`, when neither the left neighbour nor the rest is confused with the
block. -/
theorem allocBlockAt_served {free addr next rest : ℕ} (hb : getMemblockPtr addr = b)
    (hn : add32 b req = next) (hrest : sub32 (sub32 (s.heap.blocksize free) req) (sub32 b free) = rest)
    (hnb : next ≠ b) (h1 : free ≠ next) (h2 : free ≠ add32 next rest)
    (hprev : s.heap.prevblock free ≠ b) :
    Served s (s.allocBlockAt td mp free addr req) td mp b
      (if 2 * mqxMinMemoryStorageSize ≤ rest then req else add32 req rest) := by
  unfold allocBlockAt
  simp only [hb, hn, hrest]
  obtain ⟨s1, hs1⟩ : ∃ s1, s1 = if 2 * mqxMinMemoryStorageSize ≤ rest then
      s.cutRestAt free b req rest else s := ⟨_, rfl⟩
  have harea : SameArea (s.pools mp) (s1.pools mp) := by
    rw [hs1]
    split_ifs
    · exact ⟨rfl, rfl, rfl⟩
    · exact ⟨rfl, rfl, rfl⟩
  have hprev1 : s1.heap.prevblock free ≠ b := by
    rw [hs1]
    split_ifs
    · rwa [s.cutRestAt_prevblock b req hn hnb h1 h2]
    · exact hprev
  rw [← hs1]
  by_cases hfront : 2 * mqxMinMemoryStorageSize ≤ sub32 b free
  · rw [if_pos hfront]
    refine ⟨_, rfl, ?_, Function.update_self ..⟩
    refine ⟨?_, ?_, ?_⟩
    · simpa [keepFront, setPool] using harea.ptr
    · simpa [keepFront, setPool] using harea.end_
    · simpa [keepFront, setPool] using harea.highest
  · rw [if_neg hfront]
    have habs := s1.absorbFront_area td mp b free (sub32 b free)
      (if 2 * mqxMinMemoryStorageSize ≤ rest then req else add32 req rest)
      (if 2 * mqxMinMemoryStorageSize ≤ rest then next else s.heap.nextblock free)
    refine ⟨_, rfl, ?_, s1.absorbFront_blocksize td mp b free _ _ _ hprev1⟩
    refine ⟨?_, ?_, ?_⟩
    · simpa [setPool] using habs.ptr.trans harea.ptr
    · simpa [setPool] using habs.end_.trans harea.end_
    · simpa [setPool] using habs.highest.trans harea.highest

/-! ## Release -/

variable {s} {m : ℕ}

theorem setPool_area {p : Mempool} (h : SameArea (s.pools mp) p) :
    SameArea (s.pools m) ((s.setPool mp p).pools m) := by
  by_cases hm : m = mp
  · subst hm
    simpa [setPool] using h
  · simpa [setPool, hm] using SameArea.refl (s.pools m)

theorem setFreeList_area (d : DList ℕ) : SameArea (s.pools m) ((s.setFreeList mp d).pools m) := by
  by_cases hm : m = mp
  · subst hm
    constructor <;> simp [setFreeList]
  · simpa [setFreeList, hm] using SameArea.refl (s.pools m)

theorem resetFreePointers_area : SameArea (s.pools m) ((s.resetFreePointers mp).pools m) :=
  setPool_area mp ⟨rfl, rfl, rfl⟩

theorem coalesceNext_area (c : Bool) :
    SameArea (s.pools m) ((s.coalesceNext mp b c).1.pools m) := by
  unfold coalesceNext
  dsimp only
  by_cases hfree : s.heap.BlockIsFree (s.heap.nextPhys b)
  · rw [if_pos hfree]
    obtain ⟨s1, hs1⟩ : ∃ s1, s1 = if (s.pools mp).poolAllocCurrentBlock = s.heap.nextPhys b then
      s.setPool mp { s.pools mp with poolAllocCurrentBlock := b } else s := ⟨_, rfl⟩
    have h1 : SameArea (s.pools m) (s1.pools m) := by
      rw [hs1]
      split_ifs
      · exact setPool_area mp ⟨rfl, rfl, rfl⟩
      · exact .refl _
    rw [← hs1]
    obtain ⟨s2, hs2⟩ : ∃ s2, s2 = if c = true then s1.setFreeList mp ((s1.freeList mp).unlink 0 b)
      else s1.markFree b := ⟨_, rfl⟩
    have h2 : SameArea (s1.pools m) (s2.pools m) := by
      rw [hs2]
      split_ifs
      · exact setFreeList_area mp _
      · exact .refl _
    rw [← hs2]
    exact (h1.trans h2).trans (setFreeList_area mp _)
  · rw [if_neg hfree]
    exact .refl _

theorem memCheckCoalesceInternal_area :
    SameArea (s.pools m) ((s.memCheckCoalesceInternal b).1.pools m) := by
  unfold memCheckCoalesceInternal
  dsimp only
  obtain ⟨r, hr⟩ : ∃ r, r = if s.heap.prevblock b ≠ 0 ∧ s.heap.BlockIsFree (s.heap.prevblock b) then
      coalesceNext { s with heap := s.heap.joinPrev b (s.heap.prevblock b) } (s.heap.memPoolPtr b)
        (s.heap.prevblock b) true
    else coalesceNext s (s.heap.memPoolPtr b) b false := ⟨_, rfl⟩
  have h : SameArea (s.pools m) (r.1.pools m) := by
    rw [hr]
    split_ifs
    · obtain ⟨s1, hs1⟩ : ∃ s1 : Kernel, s1 =
        { s with heap := s.heap.joinPrev b (s.heap.prevblock b) } := ⟨_, rfl⟩
      have hpools : s1.pools = s.pools := by rw [hs1]
      rw [← hs1, ← hpools]
      exact coalesceNext_area _ _ _
    · exact coalesceNext_area _ _ _
  rw [← hr]
  split_ifs
  · exact h.trans (resetFreePointers_area _)
  · exact h

theorem insertFree_area (next : ℕ) : SameArea (s.pools m) ((s.insertFree mp b next).pools m) :=
  (setFreeList_area mp _).trans (resetFreePointers_area mp)

end Kernel

open Kernel

theorem memFreeLoop_area (s : Kernel) (mp b next m : ℕ) :
    SameArea (s.pools m) ((memFreeLoop s mp b next).kernel.pools m) := by
  unfold memFreeLoop
  dsimp only
  split_ifs
  · exact insertFree_area mp b next
  · exact setPool_area mp ⟨rfl, rfl, rfl⟩
  · exact insertFree_area mp b next

theorem memFreeResume_area (s : Kernel) (mp b next m : ℕ) :
    SameArea (s.pools m) ((memFreeResume s mp b next).kernel.pools m) := by
  have h := memCheckCoalesceInternal_area (s := s) b (m := m)
  unfold memFreeResume
  dsimp only
  by_cases hdone : (s.memCheckCoalesceInternal b).2 = true
  · rw [if_pos hdone]
    exact h
  · rw [if_neg hdone]
    exact h.trans (memFreeLoop_area _ _ _ _ _)

theorem memFreeUnowned_area (s : Kernel) (mp b m : ℕ) :
    SameArea (s.pools m) ((memFreeUnowned s mp b).kernel.pools m) := by
  unfold memFreeUnowned
  dsimp only
  obtain ⟨s1, hs1⟩ : ∃ s1 : Kernel, s1 =
    { s with heap := { s.heap with memType := Function.update s.heap.memType b 0 } } := ⟨_, rfl⟩
  have hpools : s1.pools = s.pools := by rw [hs1]
  have h := memCheckCoalesceInternal_area (s := s1) b (m := m)
  rw [hpools] at h
  rw [← hs1]
  by_cases hdone : (s1.memCheckCoalesceInternal b).2 = true
  · rw [if_pos hdone]
    exact h
  · rw [if_neg hdone]
    split_ifs
    · exact h.trans (memFreeLoop_area _ _ _ _ _)
    · exact h.trans (insertFree_area mp b _)

theorem memFreeRun_area {mp b fuel m : ℕ} {t : Stretch MqxCode} {code : MqxCode} {s' : Kernel}
    (h : memFreeRun mp b fuel t = some (code, s')) : SameArea (t.kernel.pools m) (s'.pools m) := by
  induction fuel generalizing t with
  | zero => simp [memFreeRun] at h
  | succ fuel ih =>
    cases hp : t.progress with
    | returned r =>
      simp only [memFreeRun, hp, Option.some.injEq, Prod.mk.injEq] at h
      rw [h.2]
      exact .refl _
    | window n =>
      simp only [memFreeRun, hp] at h
      exact (memFreeResume_area t.kernel mp b n m).trans (ih h)

/-- `_mem_free` moves neither the bounds of a pool nor its mark. -/
theorem memFree_area {s s' : Kernel} {active memPtr : ℕ} {code : MqxCode}
    (h : memFree s active memPtr = some (code, s')) (m : ℕ) :
    SameArea (s.pools m) (s'.pools m) := by
  obtain ⟨t, ht, hrun⟩ := Option.bind_eq_some_iff.mp h
  refine SameArea.trans ?_ (memFreeRun_area hrun)
  unfold memFreeBegin at ht
  dsimp only at ht
  split_ifs at ht
  · obtain rfl := Option.some.inj ht
    exact .refl _
  · obtain rfl := Option.some.inj ht
    exact .refl _
  · cases hwalk : resourceWalk s.heap memPtr maxSteps (s.memoryResourceList
      (resourceOwner s active (getMemblockPtr memPtr))) none with
    | none => simp [hwalk] at ht
    | some w =>
      obtain ⟨next, prev⟩ := w
      simp only [hwalk] at ht
      split_ifs at ht
      · obtain rfl := Option.some.inj ht
        exact .refl _
      · obtain rfl := Option.some.inj ht
        have hlink : ∀ td link, (s.setResourceLink td prev link).pools = s.pools := by
          intro td link
          cases prev <;> rfl
        have h := memFreeUnowned_area (s.setResourceLink (resourceOwner s active
          (getMemblockPtr memPtr)) prev (s.heap.nextblock (getMemblockPtr memPtr)))
          (s.heap.memPoolPtr (getMemblockPtr memPtr)) (getMemblockPtr memPtr) m
        rwa [hlink] at h
  · obtain rfl := Option.some.inj ht
    exact .refl _

/-! ## The mark after a call -/

/-- A block that ends at `e` has been remembered: the mark has not decreased, and it covers the
block exactly when it reaches `e`. -/
theorem Served.covers_iff {s s' : Kernel} {td mp b k e : ℕ} (h : Served s s' td mp b k)
    (he : b + k = e) (hlt : e < 2 ^ 32) (hptr : (s.pools mp).poolPtr < e) :
    s'.heap.blocksize b = k ∧
      (s.pools mp).poolHighestMemoryUsed ≤ (s'.pools mp).poolHighestMemoryUsed ∧
      (Covers (s'.pools mp).poolHighestMemoryUsed (b, k) ↔ s.MarkReaches mp e) := by
  obtain ⟨t, rfl, harea, hsize⟩ := h
  have hnext : t.heap.nextPhys b = e := by
    unfold Storeblocks.nextPhys
    rw [hsize, add32_of_lt (by omega), he]
  have hheap : ((t.rememberHighest mp b).linkOntoTask td mp b).heap.blocksize = t.heap.blocksize := by
    simp only [linkOntoTask, rememberHighest]
    split_ifs <;> rfl
  have hmark : (((t.rememberHighest mp b).linkOntoTask td mp b).pools mp).poolHighestMemoryUsed =
      if (s.pools mp).poolHighestMemoryUsed < e ∧ e < (s.pools mp).poolEndPtr then e - 1
      else (s.pools mp).poolHighestMemoryUsed := by
    simp only [linkOntoTask, rememberHighest, hnext, harea.ptr, harea.end_, harea.highest]
    by_cases hraise : (s.pools mp).poolHighestMemoryUsed < e ∧ e < (s.pools mp).poolEndPtr
    · rw [if_pos ⟨hraise.1, hptr, hraise.2⟩, if_pos hraise]
      simp [setPool]
    · rw [if_neg fun h => hraise ⟨h.1, h.2.2⟩, if_neg hraise]
      exact harea.highest
  refine ⟨by rw [hheap, hsize], ?_, ?_⟩
  · rw [hmark]
    split_ifs <;> omega
  · simp only [Covers, MarkReaches, hmark]
    split_ifs <;> omega

theorem Served.of_atWindow {s s' : Kernel} {td mp b k f : ℕ}
    (h : Served (PoolInv.atWindow s mp f) s' td mp b k) : Served s s' td mp b k := by
  obtain ⟨t, ht, harea, hsize⟩ := h
  have hwindow : SameArea (s.pools mp) ((PoolInv.atWindow s mp f).pools mp) :=
    setPool_area mp ⟨rfl, rfl, rfl⟩
  exact ⟨t, ht, hwindow.trans harea, hsize⟩

namespace PoolInv

variable {s s' : Kernel} {mp : ℕ} {bs fl : List ℕ} {rl : ℕ → List ℕ}

/-- Bounds of a free block. -/
theorem free_bounds (i : PoolInv s mp bs fl rl [] []) {f : ℕ} (hf : f ∈ fl) :
    f ∈ bs ∧ f % 16 = 0 ∧ 48 ≤ s.heap.blocksize f ∧ 0 < f ∧ (s.pools mp).poolPtr ≤ f ∧
      f + s.heap.blocksize f ≤ (s.pools mp).poolEndPtr ∧
      (s.pools mp).poolEndPtr + 48 < 4294967296 := by
  obtain ⟨hbs, -, hne⟩ := i.mem_of_free hf
  have hb := i.phys.bounds hbs
  have hend := i.phys.bounds i.phys.end_mem
  have hlt : f < (s.pools mp).poolEndPtr := by
    rcases Nat.lt_or_gt_of_ne hne with hlt | hgt
    · exact hlt
    · have := i.phys.tiles.disjoint i.phys.end_mem hbs hgt
      omega
  exact ⟨hbs, hb.1, hb.2.2.1, hb.2.2.2.1, (i.phys.tiles.bounds hbs).1,
    i.phys.tiles.disjoint hbs i.phys.end_mem hlt, hb.2.2.2.2.2⟩

/-- The left neighbour of a block is in front of it. -/
theorem prevblock_lt (i : PoolInv s mp bs fl rl [] []) {f : ℕ} (hf : f ∈ bs) :
    s.heap.prevblock f < f := by
  have hpos := (i.phys.bounds hf).2.2.2.1
  obtain ⟨l, r, rfl⟩ := List.append_of_mem hf
  rw [i.phys.prev_eq]
  rcases List.eq_nil_or_concat l with rfl | ⟨l, p, rfl⟩
  · exact hpos
  · have hsorted := i.phys.tiles.sorted fun b hb => by
      have := i.phys.size b hb
      rw [minSize_eq] at this
      omega
    simp only [List.concat_eq_append, List.getLastD_concat]
    exact (List.pairwise_append.mp hsorted).2.2 p (by simp) f (by simp)

/-- The first free block with a property. -/
theorem firstFree (i : PoolInv s mp bs fl rl [] []) {p : ℕ → Prop} {pre post : List ℕ} {f : ℕ}
    (hfl : fl = pre ++ f :: post) (hpre : ∀ c ∈ pre, ¬p c) (hf : p f) : s.FirstFree mp p f := by
  subst hfl
  exact ⟨pre, post, i.free.linked, i.free.null_notMem, hpre, hf⟩

theorem not_firstFree (i : PoolInv s mp bs fl rl [] []) {p : ℕ → Prop} (hnone : ∀ c ∈ fl, ¬p c)
    (f : ℕ) : ¬s.FirstFree mp p f := by
  intro h
  obtain ⟨hf, hp⟩ := h.mem i.free.linked i.free.null_notMem
  exact hnone f hf hp

/-- What a call tells about the mark. -/
def Outcome (mp : ℕ) (s : Kernel) (c : PoolCall) (r : Option (ℕ × ℕ) × Kernel) : Prop :=
  (s.pools mp).poolHighestMemoryUsed ≤ (r.2.pools mp).poolHighestMemoryUsed ∧
    (r.1 = none → c.Meets mp s) ∧
    ∀ p, r.1 = some p → (Covers (r.2.pools mp).poolHighestMemoryUsed p ↔ c.Meets mp s)

theorem Outcome.none {c : PoolCall} (hmark : (s'.pools mp).poolHighestMemoryUsed =
    (s.pools mp).poolHighestMemoryUsed) (hmeets : c.Meets mp s) : Outcome mp s c (none, s') :=
  ⟨hmark.ge, fun _ => hmeets, by simp⟩

theorem Outcome.some {c : PoolCall} {td b k e : ℕ} (h : Served s s' td mp b k) (he : b + k = e)
    (hptr : (s.pools mp).poolPtr < e) (hlt : e + 48 < 2 ^ 32)
    (hmeets : c.Meets mp s ↔ s.MarkReaches mp e) :
    Outcome mp s c (handedOut ((userAreaPtr b, .ok), s')) := by
  have hb48 : b + 48 < 2 ^ 32 := by omega
  obtain ⟨hsize, hmono, hcov⟩ := h.covers_iff he (by omega) hptr
  simp only [handedOut, if_neg (userAreaPtr_ne_zero hb48), getMemblockPtr_userAreaPtr hb48, hsize]
  refine ⟨hmono, by simp, ?_⟩
  intro p hp
  rw [← Option.some.inj hp, hcov, hmeets]

/-- `_mem_alloc_internal`. -/
theorem alloc_outcome (i : PoolInv s mp bs fl rl [] []) {size td : ℕ} (hsize : adjustSize size ≠ 0)
    {r : AllocResult × Kernel} (hcall : memAllocInternal s size td mp = .some r) :
    Outcome mp s (.alloc size td) (handedOut r) := by
  obtain ⟨hmin, -⟩ := adjustSize_spec hsize
  rcases i.memAllocInternal_cases td size with ⟨s', hrun, -, hsmall, hmark⟩ |
    ⟨pre, f, post, hfl, hpre, hfit, hrun⟩
  · obtain rfl := Option.some.inj (hcall.symm.trans hrun)
    refine .none hmark fun f hf => absurd hf (i.not_firstFree ?_ f)
    intro c hc
    exact Nat.not_le_of_lt (hsmall c hc)
  · obtain rfl := Option.some.inj (hcall.symm.trans hrun)
    have hfb := i.free_bounds (f := f) (by simp [hfl])
    have hfirst := i.firstFree (p := fun c => adjustSize size ≤ s.heap.blocksize c) hfl
      (fun c hc => Nat.not_le_of_lt (hpre c hc)) hfit
    have hserved := ((atWindow s mp f).allocBlock_served td mp f (adjustSize size)).of_atWindow
    have hwindow : (atWindow s mp f).heap = s.heap := rfl
    rw [hwindow, sub32_of_le hfit (by omega)] at hserved
    have hend : f + (if 2 * mqxMinMemoryStorageSize ≤ s.heap.blocksize f - adjustSize size then
        adjustSize size else s.heap.blocksize f) = s.servedEnd f f (adjustSize size) := by
      unfold Kernel.servedEnd
      rw [minSize_eq]
      split_ifs <;> omega
    have hle : f < s.servedEnd f f (adjustSize size) ∧
        s.servedEnd f f (adjustSize size) ≤ f + s.heap.blocksize f := by
      unfold Kernel.servedEnd
      rw [minSize_eq]
      split_ifs <;> omega
    refine .some hserved hend (by omega) (by omega) ⟨fun h => h f hfirst, fun h g hg => ?_⟩
    rwa [← hfirst.eq hg]

/-- `_mem_alloc_internal_align`. -/
theorem allocAlign_outcome (i : PoolInv s mp bs fl rl [] []) {size reqAlign td : ℕ}
    (hsize : adjustSize size ≠ 0) (halign : reqAlign < 2 ^ 32)
    (hwrap : ∀ f, s.FirstFree mp (FitsAligned s (adjustSize size) (adjustAlign reqAlign)) f →
      adjustSize size + alignShift (adjustAlign reqAlign) f < 2 ^ 32)
    {r : AllocResult × Kernel}
    (hcall : memAllocInternalAlign s size reqAlign td mp = .some r) :
    Outcome mp s (.allocAlign size reqAlign td) (handedOut r) := by
  obtain ⟨hmin, -⟩ := adjustSize_spec hsize
  by_cases hacc : reqAlign ≠ 0 ∧ reqAlign &&& (reqAlign - 1) ≠ 0
  · simp only [memAllocInternalAlign, if_pos hacc, Option.some.injEq] at hcall
    rw [← hcall]
    exact .none rfl fun h => absurd hacc h
  obtain ⟨h16, hd, hlt⟩ := adjustAlign_spec halign hacc
  rcases i.memAllocInternalAlign_cases size td halign hacc with
    ⟨s', hrun, -, hnone, hmark⟩ | ⟨pre, f, post, hfl, hpre, hfit, hrun⟩
  · obtain rfl := Option.some.inj (hcall.symm.trans hrun)
    exact .none hmark fun _ f hf => absurd hf (i.not_firstFree hnone f)
  · obtain rfl := Option.some.inj (hcall.symm.trans hrun)
    have hfb := i.free_bounds (f := f) (by simp [hfl])
    have hfirst := i.firstFree hfl hpre hfit
    have hsum := hwrap f hfirst
    obtain ⟨hshift, -, -⟩ := alignShift_spec h16 hd hlt hfb.2.1 (by omega)
    unfold FitsAligned at hfit
    rw [add32_of_lt hsum] at hfit
    have hserved := ((atWindow s mp f).allocBlockAlign_served td mp f (adjustSize size)
      (adjustAlign reqAlign)).of_atWindow
    have hwindow : (atWindow s mp f).heap = s.heap := rfl
    obtain ⟨shift, hsh⟩ : ∃ n, alignShift (adjustAlign reqAlign) f = n := ⟨_, rfl⟩
    rw [hsh] at hsum hshift hfit hserved
    have hrest : sub32 (sub32 (s.heap.blocksize f) (adjustSize size)) shift =
        s.heap.blocksize f - adjustSize size - shift := by
      rw [sub32_of_le (show adjustSize size ≤ s.heap.blocksize f by omega) (by omega)]
      exact sub32_of_le (by omega) (by omega)
    have hb : add32 f shift = f + shift := add32_of_lt (by omega)
    have hk : add32 (adjustSize size) (s.heap.blocksize f - adjustSize size - shift) =
        s.heap.blocksize f - shift := by
      rw [add32_of_lt (by omega)]
      omega
    rw [hwindow, hrest, hb, hk] at hserved
    rw [hsh, hb]
    have hend : f + shift + (if 2 * mqxMinMemoryStorageSize ≤
        s.heap.blocksize f - adjustSize size - shift then adjustSize size
        else s.heap.blocksize f - shift) = s.servedEnd f (f + shift) (adjustSize size) := by
      unfold Kernel.servedEnd
      rw [minSize_eq]
      split_ifs <;> omega
    have hle : f < s.servedEnd f (f + shift) (adjustSize size) ∧
        s.servedEnd f (f + shift) (adjustSize size) ≤ f + s.heap.blocksize f := by
      unfold Kernel.servedEnd
      rw [minSize_eq]
      split_ifs <;> omega
    refine .some hserved hend (by omega) (by omega) ⟨fun h => ?_, fun h _ g hg => ?_⟩
    · have hreach := h hacc f hfirst
      rwa [hsh] at hreach
    · rwa [← hfirst.eq hg, hsh]

/-- `_mem_alloc_at_internal`. -/
theorem allocAt_outcome (i : PoolInv s mp bs fl rl [] []) {size addr td : ℕ}
    (hsize : adjustSize size ≠ 0) (hwrap : addr + adjustSize size < 2 ^ 32)
    {r : AllocResult × Kernel} (hcall : memAllocAtInternal s size addr td mp = .some r) :
    Outcome mp s (.allocAt size addr td) (handedOut r) := by
  obtain ⟨hmin, -⟩ := adjustSize_spec hsize
  rcases i.memAllocAtInternal_cases size addr td with ⟨code, s', hrun, hmark, hnone⟩ |
    ⟨pre, f, post, hfl, hpre, hfit, hal, hrun⟩
  · obtain rfl := Option.some.inj (hcall.symm.trans hrun)
    refine .none hmark fun hal f hf => ?_
    rcases hnone with hnone | hbad
    · exact absurd hf (i.not_firstFree hnone f)
    · exact absurd hal hbad
  · obtain rfl := Option.some.inj (hcall.symm.trans hrun)
    have hfb := i.free_bounds (f := f) (by simp [hfl])
    have hfirst := i.firstFree hfl hpre hfit
    have huser : userAreaPtr f = f + 32 := userAreaPtr_eq (by omega)
    obtain ⟨hlo, hhi, hreq⟩ := hfit
    rw [huser] at hlo hhi
    rw [add32_of_lt hwrap, add32_of_lt (show f + 32 + s.heap.blocksize f < 2 ^ 32 by omega)] at hhi
    obtain ⟨b, hb⟩ : ∃ b, getMemblockPtr addr = b := ⟨_, rfl⟩
    have hb32 : b + 32 = addr := by
      rw [← hb]
      simp only [getMemblockPtr, userAreaOffset]
      rw [sub32_of_le (by omega) (by omega)]
      omega
    have hfront : sub32 b f = b - f := sub32_of_le (by omega) (by omega)
    have hrest : sub32 (sub32 (s.heap.blocksize f) (adjustSize size)) (sub32 b f) =
        f + s.heap.blocksize f - (b + adjustSize size) := by
      rw [hfront, sub32_of_le hreq (by omega), sub32_of_le (by omega) (by omega)]
      omega
    have hnext : add32 b (adjustSize size) = b + adjustSize size := add32_of_lt (by omega)
    have hafter : add32 (b + adjustSize size) (f + s.heap.blocksize f - (b + adjustSize size)) =
        f + s.heap.blocksize f := by
      rw [add32_of_lt (by omega)]
      omega
    have hprev := i.prevblock_lt hfb.1
    have hserved := ((atWindow s mp f).allocBlockAt_served td mp b (adjustSize size) hb hnext hrest
      (by omega) (by omega) (by rw [hafter]; omega)
      (show s.heap.prevblock f ≠ b by omega)).of_atWindow
    have hk : add32 (adjustSize size) (f + s.heap.blocksize f - (b + adjustSize size)) =
        f + s.heap.blocksize f - b := by
      rw [add32_of_lt (by omega)]
      omega
    rw [hk] at hserved
    rw [hb]
    have hend : b + (if 2 * mqxMinMemoryStorageSize ≤
        f + s.heap.blocksize f - (b + adjustSize size) then adjustSize size
        else f + s.heap.blocksize f - b) = s.servedEnd f b (adjustSize size) := by
      unfold Kernel.servedEnd
      rw [minSize_eq]
      split_ifs <;> omega
    have hle : f < s.servedEnd f b (adjustSize size) ∧
        s.servedEnd f b (adjustSize size) ≤ f + s.heap.blocksize f := by
      unfold Kernel.servedEnd
      rw [minSize_eq]
      split_ifs <;> omega
    refine .some hserved hend (by omega) (by omega) ⟨fun h => ?_, fun h _ g hg => ?_⟩
    · have hreach := h hal f hfirst
      rwa [hb] at hreach
    · rwa [← hfirst.eq hg, hb]

end PoolInv

theorem poolComponent_decides (mp : ℕ) :
    Decides (poolComponent mp) (PoolCall.Valid mp) fun s c => c.Meets mp s := by
  have houtcome : ∀ s c r, PoolCall.Valid mp s c → (poolComponent mp).exec s c = some r →
      PoolInv.Outcome mp s c r := by
    rintro s c r ⟨⟨bs, fl, rl, i⟩, hvalid⟩ hexec
    cases c with
    | alloc size td =>
      obtain ⟨a, ha, rfl⟩ := Option.map_eq_some_iff.mp hexec
      exact i.alloc_outcome hvalid ha
    | allocAt size addr td =>
      obtain ⟨a, ha, rfl⟩ := Option.map_eq_some_iff.mp hexec
      exact i.allocAt_outcome hvalid.1 hvalid.2 ha
    | allocAlign size reqAlign td =>
      obtain ⟨a, ha, rfl⟩ := Option.map_eq_some_iff.mp hexec
      exact i.allocAlign_outcome hvalid.1 hvalid.2.1 hvalid.2.2 ha
    | free active memPtr =>
      obtain ⟨a, ha, rfl⟩ := Option.map_eq_some_iff.mp hexec
      exact .none (memFree_area ha mp).highest trivial
  constructor
  · intro s c range s' hvalid hexec
    exact (houtcome s c _ hvalid hexec).1
  · intro s c p s' hvalid hexec
    exact (houtcome s c _ hvalid hexec).2.2 p rfl
  · intro s c s' hvalid hexec
    exact (houtcome s c _ hvalid hexec).2.1 rfl

end Mem

namespace Lwmem

open PointerList Watermark

/-- The calls of the allocator. -/
inductive PoolCall
  | alloc (size td : ℕ)
  | allocAt (size addr td : ℕ)
  | allocAlign (size reqAlign td : ℕ)
  | free (active memPtr : ℕ)

/-- The block that an allocation has returned, as address and size. -/
def handedOut (r : AllocResult × State) : Option (ℕ × ℕ) × State :=
  let block := getLwmemblockPtr r.1.1
  (if r.1.1 = 0 then none else some (block, r.2.heap.blocksize block), r.2)

/-- A pool of `lwmem.c` with its mark. -/
def poolComponent (mp : ℕ) : Component State PoolCall where
  exec s
    | .alloc size td => (lwmemAllocInternal s size td mp).map handedOut
    | .allocAt size addr td => (lwmemAllocAtInternal s size addr td mp).map handedOut
    | .allocAlign size reqAlign td => (lwmemAllocAlignInternal s size reqAlign td mp).map handedOut
    | .free active memPtr => (lwmemFree s active memPtr).map fun r => (none, r.2)
  mark s := (s.pools mp).highwater

/-- The pool is well formed, and no sum of the call runs over the end of the address space. The
requested address is that of a block. -/
def PoolCall.Valid (mp : ℕ) (s : State) (c : PoolCall) : Prop :=
  WellFormed s mp 4 ∧
  match c with
  | .alloc size _ => adjustSize size ≠ 0
  | .allocAt size addr _ => adjustSize size ≠ 0 ∧ 4 ∣ getLwmemblockPtr addr ∧
      getLwmemblockPtr addr + adjustSize size < 2 ^ 32
  | .allocAlign size reqAlign _ =>
      let size := adjustSize (max size lwmemMinMemoryStorageSize)
      size ≠ 0 ∧ reqAlign < 2 ^ 32 ∧ ∀ bs fl, PoolInv s mp 4 bs fl → ∀ f ∈ fl,
        size + alignShift (Mem.adjustAlign reqAlign) f < 2 ^ 32
  | .free _ _ => True

/-- The mark covers the block that `_lwmem_alloc_at_internal` takes, if it takes one, already
before the call. -/
def PoolCall.Meets (mp : ℕ) (s : State) : PoolCall → Prop
  | .allocAt size addr _ => ∀ f, s.FirstFitAt mp addr (adjustSize size) f →
      s.servedEnd f (getLwmemblockPtr addr) (adjustSize size) ≤ (s.pools mp).highwater + 1
  | _ => True

theorem setPool_highwater {s : State} {mp m : ℕ} {p : Pool}
    (h : p.highwater = (s.pools mp).highwater) :
    ((s.setPool mp p).pools m).highwater = (s.pools m).highwater := by
  by_cases hm : m = mp
  · subst hm
    simpa [State.setPool] using h
  · simp [State.setPool, hm]

theorem freeLoop_highwater (s : State) (mp b f m : ℕ) :
    ((freeLoop s mp b f).1.pools m).highwater = (s.pools m).highwater := by
  have hreset : ∀ t : State, ((t.resetPointers mp).pools m).highwater = (t.pools m).highwater :=
    fun t => setPool_highwater rfl
  unfold freeLoop
  dsimp only
  split_ifs
  · rw [hreset]
    by_cases hm : m = mp
    · subst hm
      exact (PoolInv.insertFirst_pools s m b).1
    · simp [State.insertFirst, State.setPool, hm, State.joinNext_pools]
  · rw [hreset, State.insertAfter_pools]
  · exact setPool_highwater rfl

theorem freeRun_highwater {mp b fuel m : ℕ} {t : State × Progress MqxCode} {code : MqxCode}
    {s' : State} (h : freeRun mp b fuel t = some (code, s')) :
    (s'.pools m).highwater = (t.1.pools m).highwater := by
  induction fuel generalizing t with
  | zero => simp [freeRun] at h
  | succ fuel ih =>
    cases hp : t.2 with
    | returned r =>
      simp only [freeRun, hp, Option.some.injEq, Prod.mk.injEq] at h
      rw [h.2]
    | window f prev =>
      simp only [freeRun, hp] at h
      rw [ih h, freeResume, freeLoop_highwater]

/-- `_lwmem_free` does not move the mark of a pool. -/
theorem lwmemFree_highwater {s s' : State} {active memPtr : ℕ} {code : MqxCode}
    (h : lwmemFree s active memPtr = some (code, s')) (m : ℕ) :
    (s'.pools m).highwater = (s.pools m).highwater := by
  unfold lwmemFree at h
  dsimp only at h
  split_ifs at h
  · rw [(Prod.mk.inj (Option.some.inj h)).2]
  · rw [(Prod.mk.inj (Option.some.inj h)).2]
  · rw [(Prod.mk.inj (Option.some.inj h)).2]
  · rw [freeRun_highwater h, freeLoop_highwater]

/-- What a call tells about the mark. -/
def MarkOutcome (mp : ℕ) (s : State) (c : PoolCall) (r : Option (ℕ × ℕ) × State) : Prop :=
  (s.pools mp).highwater ≤ (r.2.pools mp).highwater ∧ (r.1 = none → c.Meets mp s) ∧
    ∀ p, r.1 = some p → (Covers (r.2.pools mp).highwater p ↔ c.Meets mp s)

theorem MarkOutcome.none {mp : ℕ} {s s' : State} {c : PoolCall}
    (hmark : (s'.pools mp).highwater = (s.pools mp).highwater) (hmeets : c.Meets mp s) :
    MarkOutcome mp s c (none, s') :=
  ⟨hmark.ge, fun _ => hmeets, by simp⟩

/-- A block has been handed out and `e` has been remembered as its end. -/
theorem MarkOutcome.some {mp td q k e ptr : ℕ} {s s' : State} {c : PoolCall} {bs fl bs' fl' : List ℕ}
    (h : Allocated s s' mp 4 td q k e bs fl bs' fl') (hq : getLwmemblockPtr ptr = q) (hptr : ptr ≠ 0)
    (hmeets : c.Meets mp s ↔ q + k - 1 ≤ max (s.pools mp).highwater (e - 1)) :
    MarkOutcome mp s c (handedOut ((ptr, .ok), s')) := by
  have hmark := h.highwater
  simp only [handedOut, if_neg hptr, hq, h.size]
  refine ⟨by rw [hmark]; exact le_max_left _ _, by simp, ?_⟩
  intro p hp
  rw [← Option.some.inj hp, Covers, hmark, hmeets]

theorem poolComponent_outcome {mp : ℕ} {s : State} {c : PoolCall} {r : Option (ℕ × ℕ) × State}
    (hvalid : PoolCall.Valid mp s c) (hexec : (poolComponent mp).exec s c = some r) :
    MarkOutcome mp s c r := by
  obtain ⟨⟨bs, fl, i⟩, hvalid⟩ := hvalid
  have hreset : ((s.resetPointers mp).pools mp).highwater = (s.pools mp).highwater :=
    s.resetPointers_highwater mp
  cases c with
  | alloc size td =>
    obtain ⟨a, ha, rfl⟩ := Option.map_eq_some_iff.mp hexec
    rcases i.lwmemAllocInternal_spec td (by decide) hvalid with
      ⟨he, -⟩ | ⟨s', b, k, bs', fl', he, -, hb, h⟩
    · obtain rfl := Option.some.inj (ha.symm.trans he)
      exact .none hreset trivial
    · obtain rfl := Option.some.inj (ha.symm.trans he)
      have hbb := i.bounds (i.free_mem b hb)
      have hlim : b + 16 < 2 ^ 32 := by omega
      exact .some h (getLwmemblockPtr_userPtr hlim) (userPtr_ne_zero hlim)
        (iff_of_true trivial (le_max_right _ _))
  | allocAt size addr td =>
    obtain ⟨a, ha, rfl⟩ := Option.map_eq_some_iff.mp hexec
    rcases i.lwmemAllocAtInternal_spec td (by decide) hvalid.1 hvalid.2.1 hvalid.2.2 with
      ⟨he, hnone⟩ | ⟨s', k, bs', fl', f, he, hk, -, hfirst, hend, h⟩
    · obtain rfl := Option.some.inj (ha.symm.trans he)
      exact .none hreset fun f hf => absurd hf (hnone f)
    · obtain rfl := Option.some.inj (ha.symm.trans he)
      have hmin := (adjustSize_spec hvalid.1).1
      have hmeets : PoolCall.Meets mp s (.allocAt size addr td) ↔
          s.servedEnd f (getLwmemblockPtr addr) (adjustSize size) ≤ (s.pools mp).highwater + 1 := by
        refine ⟨fun hm => hm f hfirst, fun hle g hg => ?_⟩
        rwa [← hfirst.eq hg]
      refine .some h rfl ?_ ?_
      · rintro rfl
        have hwrap := hvalid.2.2
        have hnull : getLwmemblockPtr 0 = 4294967284 := rfl
        omega
      · rw [hmeets, ← hend]
        omega
  | allocAlign size reqAlign td =>
    obtain ⟨a, ha, rfl⟩ := Option.map_eq_some_iff.mp hexec
    rcases i.lwmemAllocAlignInternal_spec td hvalid.1 hvalid.2.1 (hvalid.2.2 bs fl i) with
      he | he | ⟨s', q, k, bs', fl', he, -, h⟩
    · obtain rfl := Option.some.inj (ha.symm.trans he)
      exact .none rfl trivial
    · obtain rfl := Option.some.inj (ha.symm.trans he)
      exact .none hreset trivial
    · obtain rfl := Option.some.inj (ha.symm.trans he)
      have hqb := h.layout.bounds h.mem
      rw [h.size] at hqb
      have hlim : q + 16 < 2 ^ 32 := by omega
      exact .some h (getLwmemblockPtr_userPtr hlim) (userPtr_ne_zero hlim)
        (iff_of_true trivial (le_max_right _ _))
  | free active memPtr =>
    obtain ⟨a, ha, rfl⟩ := Option.map_eq_some_iff.mp hexec
    exact .none (lwmemFree_highwater ha mp) trivial

theorem poolComponent_decides (mp : ℕ) :
    Decides (poolComponent mp) (PoolCall.Valid mp) fun s c => c.Meets mp s where
  mono _ _ _ _ hvalid hexec := (poolComponent_outcome hvalid hexec).1
  covers_iff _ _ p _ hvalid hexec := (poolComponent_outcome hvalid hexec).2.2 p rfl
  none _ _ _ hvalid hexec := (poolComponent_outcome hvalid hexec).2.1 rfl

end Lwmem
open Watermark

/-- On a well formed pool no call lowers the mark, and if the mark has covered all blocks of the
past, then it still does exactly when the call meets its condition. So it does in every run of
calls that meet it. -/
theorem highwater_covers (mp : ℕ) :
    ((∀ (t t' : History Mem.Kernel) (c : Mem.PoolCall),
      Step (Mem.poolComponent mp) (Mem.PoolCall.Valid mp) t c t' →
      (t.state.pools mp).poolHighestMemoryUsed ≤ (t'.state.pools mp).poolHighestMemoryUsed ∧
      (t.Covered (Mem.poolComponent mp) →
        (t'.Covered (Mem.poolComponent mp) ↔ c.Meets mp t.state))) ∧
      ∀ (t t' : History Mem.Kernel), Relation.ReflTransGen (fun t t' =>
        ∃ c, Step (Mem.poolComponent mp) (Mem.PoolCall.Valid mp) t c t' ∧ c.Meets mp t.state) t t' →
      (t.state.pools mp).poolHighestMemoryUsed ≤ (t'.state.pools mp).poolHighestMemoryUsed ∧
      (t.Covered (Mem.poolComponent mp) → t'.Covered (Mem.poolComponent mp))) ∧
    (∀ (t t' : History Lwmem.State) (c : Lwmem.PoolCall),
      Step (Lwmem.poolComponent mp) (Lwmem.PoolCall.Valid mp) t c t' →
      (t.state.pools mp).highwater ≤ (t'.state.pools mp).highwater ∧
      (t.Covered (Lwmem.poolComponent mp) →
        (t'.Covered (Lwmem.poolComponent mp) ↔ c.Meets mp t.state))) ∧
      ∀ (t t' : History Lwmem.State), Relation.ReflTransGen (fun t t' =>
        ∃ c, Step (Lwmem.poolComponent mp) (Lwmem.PoolCall.Valid mp) t c t' ∧ c.Meets mp t.state)
        t t' →
      (t.state.pools mp).highwater ≤ (t'.state.pools mp).highwater ∧
      (t.Covered (Lwmem.poolComponent mp) → t'.Covered (Lwmem.poolComponent mp)) := by
  refine ⟨⟨?_, ?_⟩, ?_, ?_⟩
  · intro t t' c hstep
    exact (Mem.poolComponent_decides mp).step hstep
  · intro t t' hrun
    exact (Mem.poolComponent_decides mp).run hrun
  · intro t t' c hstep
    exact (Lwmem.poolComponent_decides mp).step hstep
  · intro t t' hrun
    exact (Lwmem.poolComponent_decides mp).run hrun

/-- An allocation of the first 144 bytes of the pool of `mem.c`, and one of the first 32 bytes of
the pool of `lwmem.c`. -/
theorem highwater_covers_smallPool :
    (∃ t', Step (Mem.poolComponent 1) (Mem.PoolCall.Valid 1) ⟨Mem.smallPool, []⟩
      (.alloc 100 1) t' ∧ (Mem.smallPool.pools 1).poolHighestMemoryUsed ≤
        (t'.state.pools 1).poolHighestMemoryUsed) ∧
    (Mem.smallPool.pools 1).poolHighestMemoryUsed ≤ (Mem.smallPool.pools 1).poolHighestMemoryUsed ∧
    (∃ t', Step (Lwmem.poolComponent 1) (Lwmem.PoolCall.Valid 1) ⟨Lwmem.smallPool, []⟩
      (.alloc 20 1) t' ∧ (Lwmem.smallPool.pools 1).highwater ≤ (t'.state.pools 1).highwater) ∧
    (Lwmem.smallPool.pools 1).highwater ≤ (Lwmem.smallPool.pools 1).highwater := by
  refine ⟨?_, ((highwater_covers 1).1.2 ⟨Mem.smallPool, []⟩ _ .refl).1, ?_,
    ((highwater_covers 1).2.2 ⟨Lwmem.smallPool, []⟩ _ .refl).1⟩
  · have h : ((Mem.poolComponent 1).exec Mem.smallPool (.alloc 100 1)).isSome := by decide +kernel
    obtain ⟨⟨range, s'⟩, hexec⟩ := Option.isSome_iff_exists.mp h
    have hstep : Step (Mem.poolComponent 1) (Mem.PoolCall.Valid 1) ⟨Mem.smallPool, []⟩
        (.alloc 100 1) _ := .mk ⟨Mem.smallPool_wellFormed, by decide⟩ hexec
    exact ⟨_, hstep, ((highwater_covers 1).1.1 _ _ _ hstep).1⟩
  · have h : ((Lwmem.poolComponent 1).exec Lwmem.smallPool (.alloc 20 1)).isSome := by decide +kernel
    obtain ⟨⟨range, s'⟩, hexec⟩ := Option.isSome_iff_exists.mp h
    have hwf : Lwmem.WellFormed Lwmem.smallPool 1 4 :=
      ⟨_, _, Lwmem.smallPool_inv.weaken (by decide)⟩
    have hstep : Step (Lwmem.poolComponent 1) (Lwmem.PoolCall.Valid 1) ⟨Lwmem.smallPool, []⟩
        (.alloc 20 1) _ := .mk ⟨hwf, by decide⟩ hexec
    exact ⟨_, hstep, ((highwater_covers 1).2.1 _ _ _ hstep).1⟩

/-- The only free block of each pool: 208 bytes are taken from the 240 of `mem.c`, whose rest goes
with them, and 32 bytes at `0x1040` from the pool of `lwmem.c`. -/
theorem highwater_not_covers :
    (∃ t', Step (Mem.poolComponent 1) (Mem.PoolCall.Valid 1) ⟨Mem.smallPool, []⟩ (.alloc 176 1) t' ∧
      ¬t'.Covered (Mem.poolComponent 1)) ∧
    ∃ t', Step (Lwmem.poolComponent 1) (Lwmem.PoolCall.Valid 1) ⟨Lwmem.smallPool, []⟩
      (.allocAt 20 0x104c 1) t' ∧ ¬t'.Covered (Lwmem.poolComponent 1) := by
  constructor
  · have h : ((Mem.poolComponent 1).exec Mem.smallPool (.alloc 176 1)).map (fun r =>
        (r.1, (r.2.pools 1).poolHighestMemoryUsed)) = some (some (0x1000, 240), 0x1000) := by
      decide +kernel
    obtain ⟨⟨range, s'⟩, hexec, he⟩ := Option.map_eq_some_iff.mp h
    obtain ⟨rfl, hmark⟩ := Prod.mk.inj he
    refine ⟨_, .mk ⟨Mem.smallPool_wellFormed, by decide⟩ hexec, fun hcov => ?_⟩
    have hlast : 0x1000 + 240 - 1 ≤ (s'.pools 1).poolHighestMemoryUsed :=
      hcov (0x1000, 240) (by simp)
    rw [hmark] at hlast
    exact absurd hlast (by decide)
  · have h : ((Lwmem.poolComponent 1).exec Lwmem.smallPool (.allocAt 20 0x104c 1)).map (fun r =>
        (r.1, (r.2.pools 1).highwater)) = some (some (0x1040, 32), 0x103f) := by
      decide +kernel
    obtain ⟨⟨range, s'⟩, hexec, he⟩ := Option.map_eq_some_iff.mp h
    obtain ⟨rfl, hmark⟩ := Prod.mk.inj he
    have hwf : Lwmem.WellFormed Lwmem.smallPool 1 4 :=
      ⟨_, _, Lwmem.smallPool_inv.weaken (by decide)⟩
    refine ⟨_, .mk ⟨hwf, by decide⟩ hexec, fun hcov => ?_⟩
    have hlast : 0x1040 + 32 - 1 ≤ (s'.pools 1).highwater := hcov (0x1040, 32) (by simp)
    rw [hmark] at hlast
    exact absurd hlast (by decide)

end Mqx
