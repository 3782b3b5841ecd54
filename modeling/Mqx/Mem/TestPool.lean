import Mqx.Mem.Calls

/-!
# The pool checker

`_mem_test_pool` walks the physical blocks and then the free list. It finds nothing
wrong with a well formed pool.
-/

namespace Mqx.Mem

open PointerList

namespace Kernel

variable (s : Kernel) (mp : ℕ)

/-- Store `POOL_BLOCK_IN_ERROR`. -/
def blockInError (block : ℕ) : Kernel :=
  s.setPool mp { s.pools mp with poolBlockInError := block }

/-- Store `POOL_PHYSICAL_CHECK_BLOCK`. -/
def physicalCheckBlock (block : ℕ) : Kernel :=
  s.setPool mp { s.pools mp with poolPhysicalCheckBlock := block }

/-- Store `POOL_FREE_CHECK_BLOCK`. -/
def freeCheckBlock (block : ℕ) : Kernel :=
  s.setPool mp { s.pools mp with poolFreeCheckBlock := block }

end Kernel

/-- The loop of `_mem_test_pool` over the physical blocks. -/
def memTestPhysical (mp : ℕ) : ℕ → Kernel → Option (MqxCode × Kernel)
  | 0, _ => none
  | fuel + 1, s =>
    let block := (s.pools mp).poolPhysicalCheckBlock
    if block < (s.pools mp).poolEndPtr then
      if block = 0 ∨ ¬MemoryAligned block then
        some (.corruptStoragePool, s.blockInError mp block)
      else if ¬s.heap.ValidChecksum block then
        some (.invalidChecksum, s.blockInError mp block)
      else
        let next := s.heap.nextPhys block
        if s.heap.prevblock next ≠ block then
          some (.corruptStoragePool, s.blockInError mp next)
        else memTestPhysical mp fuel (s.physicalCheckBlock mp next)
    else some (.ok, s)

/-- The loop of `_mem_test_pool` over the free list. -/
def memTestFree (mp : ℕ) : ℕ → Kernel → Option (MqxCode × Kernel)
  | 0, _ => none
  | fuel + 1, s =>
    let block := (s.pools mp).poolFreeCheckBlock
    if block < (s.pools mp).poolEndPtr then
      if block = 0 ∨ ¬MemoryAligned block then
        some (.corruptStoragePoolFreeList, s.blockInError mp block)
      else if ¬s.heap.ValidChecksum block then
        some (.invalidChecksum, s.blockInError mp block)
      else if ¬s.heap.BlockIsFree block then
        some (.corruptStoragePoolFreeList, s.blockInError mp block)
      else
        let next := s.heap.nextblock block
        if next = 0 then some (.ok, s)
        else if s.heap.userArea next ≠ block then
          some (.corruptStoragePoolFreeList, s.blockInError mp block)
        else memTestFree mp fuel (s.freeCheckBlock mp next)
    else some (.ok, s)

/-- `_mem_test_pool`; `none` when one of the walks never ends. -/
def memTestPool (s : Kernel) (mp : ℕ) : Option (MqxCode × Kernel) :=
  match memTestPhysical mp maxSteps (s.physicalCheckBlock mp (s.pools mp).poolPtr) with
  | none => none
  | some (.ok, s) =>
    let head := (s.pools mp).poolFreeListPtr
    if head = 0 then some (.ok, s)
    else
      let s := s.freeCheckBlock mp head
      if s.heap.userArea head ≠ 0 then
        some (.corruptStoragePoolFreeList, s.blockInError mp head)
      else memTestFree mp maxSteps s
  | some (code, s) => some (code, s)

namespace PoolInv

variable {s : Kernel} {mp : ℕ} {bs l r fl f g limbo : List ℕ} {rl : ℕ → List ℕ}

/-- The walk over the blocks that follow `b`. -/
theorem memTestPhysical_ok {b : ℕ} (i : PoolInv s mp (l ++ b :: r) fl rl limbo [])
    (hb : (s.pools mp).poolPhysicalCheckBlock = b) (fuel : ℕ) (hfuel : r.length < fuel) :
    ∃ s', memTestPhysical mp fuel s = some (.ok, s') ∧
      PoolInv s' mp (l ++ b :: r) fl rl limbo [] := by
  induction r generalizing s l b fuel with
  | nil =>
    obtain ⟨fuel, rfl⟩ := Nat.exists_eq_succ_of_ne_zero (Nat.ne_of_gt hfuel)
    obtain ⟨t, ht⟩ := i.phys.last
    have hend : b = (s.pools mp).poolEndPtr := by simpa using (List.append_inj' ht rfl).2
    refine ⟨s, ?_, i⟩
    simp [memTestPhysical, hb, hend]
  | cons m r ih =>
    obtain ⟨fuel, rfl⟩ := Nat.exists_eq_succ_of_ne_zero (Nat.ne_of_gt (Nat.zero_lt_of_lt hfuel))
    have hmem : b ∈ l ++ b :: m :: r := by simp
    have hbb := i.phys.bounds hmem
    have hnext : s.heap.nextPhys b = m := (i.phys.nextPhys_eq hmem).trans i.phys.next_eq
    have hsplit : l ++ b :: m :: r = (l ++ [b]) ++ m :: r := by simp
    have hprev : s.heap.prevblock m = b := i.phys.prev_next_eq
    have hm := i.phys.bounds (b := m) (by simp)
    have hbm := i.phys.next_eq
    have hlt : b < (s.pools mp).poolEndPtr := by omega
    have hstep : memTestPhysical mp (fuel + 1) s =
        memTestPhysical mp fuel (s.physicalCheckBlock mp m) := by
      simp [memTestPhysical, hb, hlt, hnext, hprev, i.phys.sums b hmem, memoryAligned_iff, hbb.1,
        hbb.2.2.2.1.ne']
    rw [Nat.succ_eq_add_one, hstep, hsplit]
    refine ih (s := s.physicalCheckBlock mp m) (l := l ++ [b]) ?_ ?_ fuel (by simpa using hfuel)
    · rw [← hsplit]
      exact i.setPool rfl rfl rfl
    · simp [Kernel.physicalCheckBlock, Kernel.setPool]

/-- The walk over the free blocks that follow `b`. -/
theorem memTestFree_ok {b : ℕ} (i : PoolInv s mp bs (f ++ b :: g) rl limbo [])
    (hb : (s.pools mp).poolFreeCheckBlock = b) (fuel : ℕ) (hfuel : g.length < fuel) :
    ∃ s', memTestFree mp fuel s = some (.ok, s') := by
  induction g generalizing s f b fuel with
  | nil =>
    obtain ⟨fuel, rfl⟩ := Nat.exists_eq_succ_of_ne_zero (Nat.ne_of_gt hfuel)
    obtain ⟨hbs, hfree, -⟩ := i.mem_of_free (b := b) (by simp)
    have hbb := i.phys.bounds hbs
    have hnext : s.heap.nextblock b = 0 := i.nextFree_eq
    refine ⟨s, ?_⟩
    simp [memTestFree, hb, i.phys.sums b hbs, memoryAligned_iff, hbb.1, hbb.2.2.2.1.ne', hfree,
      hnext]
  | cons n g ih =>
    obtain ⟨fuel, rfl⟩ := Nat.exists_eq_succ_of_ne_zero (Nat.ne_of_gt (Nat.zero_lt_of_lt hfuel))
    obtain ⟨hbs, hfree, hbe⟩ := i.mem_of_free (b := b) (by simp)
    have hbb := i.phys.bounds hbs
    have hnext : s.heap.nextblock b = n := i.nextFree_eq
    have hsplit : f ++ b :: n :: g = (f ++ [b]) ++ n :: g := by simp
    have hprev : s.heap.userArea n = b := i.prevFree_eq
    have hn0 : n ≠ 0 := by
      rintro rfl
      exact i.free.null_notMem (by simp)
    have hlt : b < (s.pools mp).poolEndPtr := by omega
    have hstep : memTestFree mp (fuel + 1) s = memTestFree mp fuel (s.freeCheckBlock mp n) := by
      simp [memTestFree, hb, hlt, hnext, hprev, hn0, hfree, i.phys.sums b hbs, memoryAligned_iff,
        hbb.1, hbb.2.2.2.1.ne']
    rw [Nat.succ_eq_add_one, hstep]
    refine ih (s := s.freeCheckBlock mp n) (f := f ++ [b]) (b := n) ?_ ?_ fuel (by simpa using hfuel)
    · rw [← hsplit]
      exact i.setPool rfl rfl rfl
    · simp [Kernel.freeCheckBlock, Kernel.setPool]

end PoolInv

/-- `_mem_test_pool` accepts a well formed pool. -/
theorem WellFormed.memTestPool_ok {s : Kernel} {mp : ℕ} (h : WellFormed s mp) :
    ∃ s', memTestPool s mp = some (.ok, s') := by
  obtain ⟨bs, fl, rl, i⟩ := h
  have hlen := i.phys.length_lt i.phys.nodup fun b hb => hb
  cases bs with
  | nil => exact absurd i.phys.end_mem (by simp)
  | cons b r =>
    have hstart : (s.pools mp).poolPtr = b := (Tiles.cons.mp i.phys.tiles).1
    have hs : PoolInv (s.physicalCheckBlock mp (s.pools mp).poolPtr) mp ([] ++ b :: r) fl rl [] [] :=
      i.setPool rfl rfl rfl
    obtain ⟨s1, he, i1⟩ := hs.memTestPhysical_ok (by
      simpa [Kernel.physicalCheckBlock, Kernel.setPool] using hstart) maxSteps
      (by simp at hlen; omega)
    unfold memTestPool
    rw [he]
    have hhead : (s1.pools mp).poolFreeListPtr = fl.headD 0 := i1.free.head_eq
    cases fl with
    | nil => exact ⟨s1, by simp [hhead]⟩
    | cons c g =>
      have hlen' := i1.phys.length_lt i1.free.nodup fun b hb => (i1.mem_of_free hb).1
      have hc0 : c ≠ 0 := by
        rintro rfl
        exact i1.free.null_notMem (by simp)
      have hprev : s1.heap.userArea c = 0 := by
        simpa [Kernel.freeList] using DList.Represents.prev_eq (l := []) i1.free
      obtain ⟨s', he'⟩ := PoolInv.memTestFree_ok (s := s1.freeCheckBlock mp c) (f := [])
        (i1.setPool rfl rfl rfl) (by simp [Kernel.freeCheckBlock, Kernel.setPool]) maxSteps
        (by simp at hlen'; omega)
      refine ⟨s', ?_⟩
      have hua : (s1.freeCheckBlock mp c).heap.userArea c = 0 := hprev
      simp [hhead, hc0, hua, he']

end Mqx.Mem
