import Mqx.Mem.Coalesce

/-!
# Release keeps a pool well formed

The sorted insertion of `_mem_free` for a block without free neighbours, one turn of
its loop at a time, and the removal of the block from the resource list of its owner.
-/

namespace Mqx.Mem

open PointerList

/-- The free list before the insertion of `b`: `NEXTBLOCK` is cleared with the owner. -/
def clearedList (s : Kernel) (mp b : ℕ) : DList ℕ :=
  { s.freeList mp with next := Function.update s.heap.nextblock b 0 }

/-- The free list after the insertion of `b` next to `next`. -/
def insertedList (s : Kernel) (mp b next : ℕ) : DList ℕ :=
  if next = (s.pools mp).poolFreeListPtr then (clearedList s mp b).insertHead 0 b
  else if next < b then (clearedList s mp b).insertEnd 0 next b
  else (clearedList s mp b).insertBefore next b

/-- The stores of `insertFree`, all at once. -/
theorem insertFree_eq (s : Kernel) (mp b next : ℕ) : s.insertFree mp b next =
    { s with
      heap := { s.heap with
        taskNumber := Function.update s.heap.taskNumber b 0
        checksum := Function.update s.heap.checksum b
          ((s.heap.blocksize b + s.heap.prevblock b + s.heap.memType b) % 2 ^ 32)
        nextblock := (insertedList s mp b next).next
        userArea := (insertedList s mp b next).prev }
      pools := Function.update s.pools mp { s.pools mp with
        poolFreeListPtr := (insertedList s mp b next).head
        poolPhysicalCheckBlock := (s.pools mp).poolPtr
        poolFreeCheckBlock := (insertedList s mp b next).head
        poolFreeCurrentBlock := (insertedList s mp b next).head } } := by
  simp [Kernel.insertFree, Kernel.markFree, Kernel.setFreeList, Kernel.freeList,
    Kernel.resetFreePointers, Kernel.setPool, Storeblocks.calcChecksum, Storeblocks.headerSum,
    insertedList, clearedList]

namespace Layout

variable {s s' : Kernel} {mp b : ℕ} {bs fl fl' limbo stale : List ℕ} {rl : ℕ → List ℕ}

/-- A block that is being released becomes a free block: `d` is the free list after
that. -/
theorem insertFree (i : Layout s mp bs fl rl limbo stale) (hb : b ∈ limbo) {next : ℕ}
    (hd : (insertedList s mp b next).Represents 0 fl') (hfl : ∀ c, c ∈ fl' ↔ c = b ∨ c ∈ fl)
    (hnext : ∀ c, c ∉ fl → c ≠ b → (insertedList s mp b next).next c = s.heap.nextblock c) :
    Layout (s.insertFree mp b next) mp bs fl' rl (limbo.erase b) (stale.filter (· ≠ b)) := by
  obtain ⟨hbs, hbe, hbu⟩ := i.of_limbo hb
  have hres : ∀ t, ∀ c ∈ rl t, c ≠ b := by
    rintro t c hc rfl
    exact i.limbo_notMem c hb t hc
  rw [insertFree_eq]
  constructor
  · simp only [Function.update_self]
    refine i.phys.retag (b := b) ?_ rfl rfl (mem_filter_ne b) ?_
    · intro c _ hc
      constructor <;> simp [hc]
    · simp [Storeblocks.ValidChecksum, Storeblocks.headerSum]
  · apply hd.congr
    · simp [Kernel.freeList]
    · simp [Kernel.freeList]
    · simp [Kernel.freeList]
  · intro c
    rw [hfl, i.mem_free]
    by_cases hcb : c = b
    · simp [hcb, hbs, Storeblocks.BlockIsFree]
    · simp [hcb, Storeblocks.BlockIsFree]
  · simpa [Storeblocks.BlockIsFree, hbe.symm] using i.end_used
  · intro t
    apply i.res_congr
    intro c hc
    exact hnext c (i.notMem_free (i.of_res hc).2.2) (hres t c hc)
  · exact i.res_nodup
  · intro t c hc
    simpa [hres t c hc] using i.res_task t c hc
  · exact i.limbo_nodup.erase b
  · intro c hc t
    exact i.limbo_notMem c (List.mem_of_mem_erase hc) t
  · intro c hc
    obtain ⟨hc, hcb⟩ := List.mem_filter.mp hc
    rw [i.limbo_nodup.mem_erase_iff]
    exact ⟨by simpa using hcb, i.stale_limbo c hc⟩
  · intro c
    rw [i.owned_erase hb]
    by_cases hcb : c = b
    · simp [hcb, Storeblocks.BlockIsFree]
    · simp [hcb, Storeblocks.BlockIsFree]
  · intro c hc
    exact i.pool c ((i.owned c).mpr ((i.owned_erase hb c).mp hc).1)

end Layout

/-- The nodes of the free list after an insertion next to `next`. -/
def insertedNodes (f g : List ℕ) (next b : ℕ) : List ℕ :=
  if f = [] then b :: next :: g else if next < b then f ++ next :: b :: g else f ++ b :: next :: g

theorem mem_insertedNodes {f g : List ℕ} {next b c : ℕ} :
    c ∈ insertedNodes f g next b ↔ c = b ∨ c ∈ f ++ next :: g := by
  unfold insertedNodes
  split_ifs with h1 h2
  · simp [h1]
  · simp only [List.mem_append, List.mem_cons]
    tauto
  · simp only [List.mem_append, List.mem_cons]
    tauto

/-- The insertion keeps the order, unless the block is put in front of a lower one. -/
theorem sorted_insertedNodes {f g : List ℕ} {next b : ℕ} (h : (f ++ next :: g).Pairwise (· < ·))
    (hf : ∀ c ∈ f, c < b) (hnb : next ≠ b) (hlast : next < b → g = [] ∧ f ≠ []) :
    (insertedNodes f g next b).Pairwise (· < ·) := by
  unfold insertedNodes
  simp only [List.pairwise_append, List.pairwise_cons, List.mem_cons] at h
  split_ifs with h1 h2
  · have hbn : b < next := by
      rcases Nat.lt_trichotomy next b with hlt | heq | hgt
      · exact absurd h1 (hlast hlt).2
      · exact absurd heq hnb
      · exact hgt
    simp only [List.pairwise_cons, List.mem_cons]
    grind
  · obtain ⟨rfl, -⟩ := hlast h2
    simp only [List.pairwise_append, List.pairwise_cons, List.mem_cons]
    grind
  · simp only [List.pairwise_append, List.pairwise_cons, List.mem_cons]
    grind

/-- The insertion next to a free block `next`. Only the last one may be lower than the
new block. -/
theorem insertedList_spec {s : Kernel} {mp b next : ℕ} {f g : List ℕ}
    (hd : (s.freeList mp).Represents 0 (f ++ next :: g)) (hb : b ∉ f ++ next :: g) (hb0 : b ≠ 0)
    (hlast : next < b → g = []) :
    (insertedList s mp b next).Represents 0 (insertedNodes f g next b) ∧
      ∀ c, c ∉ f ++ next :: g → c ≠ b →
        (insertedList s mp b next).next c = s.heap.nextblock c := by
  have hclear : (clearedList s mp b).Represents 0 (f ++ next :: g) := by
    refine hd.congr rfl ?_ fun c _ => rfl
    intro c hc
    exact Function.update_of_ne (by rintro rfl; exact hb hc) _ _
  have hframe : ∀ c, c ≠ b → (clearedList s mp b).next c = s.heap.nextblock c := fun c hc =>
    Function.update_of_ne hc _ _
  have hhead : (s.pools mp).poolFreeListPtr = (f ++ next :: g).headD 0 := hd.head_eq
  have hfn : next ∉ f := (hd.at).2.2.2.2.1
  have hfirst : next = (s.pools mp).poolFreeListPtr ↔ f = [] := by
    rw [hhead]
    cases f with
    | nil => simp
    | cons a f =>
      have hna : next ≠ a := by rintro rfl; simp at hfn
      simp [hna]
  have hnb : b ≠ next := by rintro rfl; simp at hb
  unfold insertedList insertedNodes
  simp only [hfirst]
  split_ifs with h1 h2
  · subst h1
    refine ⟨hclear.insertHead hb hb0, ?_⟩
    intro c _ hcb
    rw [DList.insertHead_next hcb, hframe c hcb]
  · obtain rfl := hlast h2
    refine ⟨hclear.insertEnd hb hb0, ?_⟩
    intro c hc hcb
    have hcn : c ≠ next := by rintro rfl; simp at hc
    rw [DList.insertEnd_next hcn hcb, hframe c hcb]
  · refine ⟨hclear.insertBefore h1 hb hb0, ?_⟩
    intro c hc hcb
    have hne : next ≠ (clearedList s mp b).head := fun h => h1 (hfirst.mp h)
    have hprev := (hclear.prev_ne (b := next) (by simp) hne).1
    have hcp : c ≠ (clearedList s mp b).prev next := by rintro rfl; exact hc hprev
    rw [DList.insertBefore_next hcp hcb hnb, hframe c hcb]

/-- The insertion into an empty free list. -/
theorem insertedList_nil {s : Kernel} {mp b : ℕ} (hd : (s.freeList mp).Represents 0 [])
    (hb0 : b ≠ 0) : (insertedList s mp b 0).Represents 0 [b] ∧
      ∀ c, c ∉ ([] : List ℕ) → c ≠ b →
        (insertedList s mp b 0).next c = s.heap.nextblock c := by
  have hclear : (clearedList s mp b).Represents 0 [] :=
    hd.congr rfl (by simp) (by simp)
  have hhead : (s.pools mp).poolFreeListPtr = 0 := hd.head_eq
  unfold insertedList
  rw [if_pos hhead.symm]
  refine ⟨hclear.insertHead (by simp) hb0, ?_⟩
  intro c _ hcb
  rw [DList.insertHead_next hcb]
  exact Function.update_of_ne hcb _ _

/-- What the end of an insertion achieves. -/
structure Inserted (s s' : Kernel) (mp b : ℕ) (fl : List ℕ) (rl : ℕ → List ℕ)
    (limbo stale : List ℕ) (fl' : List ℕ) : Prop where
  inv : ∃ bs', PoolInv s' mp bs' fl' rl limbo stale
  mem : ∀ c, c ∈ fl' ↔ c = b ∨ c ∈ fl
  freeCursor : (s'.pools mp).poolFreeCurrentBlock = (s'.pools mp).poolFreeListPtr
  allocCursor : (s'.pools mp).poolAllocCurrentBlock = (s.pools mp).poolAllocCurrentBlock
  memType : s'.heap.memType = s.heap.memType

namespace PoolInv

variable {s : Kernel} {mp b next : ℕ} {bs l r f g fl fl' limbo stale : List ℕ} {rl : ℕ → List ℕ}

/-- A released block without free neighbours does not touch another free block. -/
theorem apart_insertFree (i : PoolInv s mp bs fl rl limbo stale) (hb : b ∈ limbo)
    (hn : NoFreeNeighbour s b) : Apart (s.insertFree mp b next).heap bs := by
  obtain ⟨hbs, hbe, hbu⟩ := i.of_limbo hb
  obtain ⟨l, m, r, rfl⟩ := i.phys.exists_next hbs hbe
  have hnext : s.heap.nextPhys b = m := (i.phys.nextPhys_eq hbs).trans i.phys.next_eq
  have hpre := i.phys.prev_eq
  have hd := i.phys.nodup
  have hother : ∀ c, c ≠ b → (s.insertFree mp b next).heap.taskNumber c = s.heap.taskNumber c := by
    intro c hc
    rw [insertFree_eq]
    exact Function.update_of_ne hc _ _
  have hr : Apart s.heap ([b, m] ++ r) := i.apart.right
  have hsplit : l ++ b :: m :: r = (l ++ [b]) ++ m :: r := by simp
  rw [hsplit]
  refine Apart.append_cons_of_used ?_ (Apart.concat ?_ ?_) ?_
  · rw [Storeblocks.BlockIsFree, hother m (by grind)]
    exact hnext ▸ hn.2
  · exact i.apart.left.congr fun c hc => hother c (by grind)
  · intro q hq
    obtain ⟨l, rfl⟩ := List.getLast?_eq_some_iff.mp hq
    rw [Storeblocks.BlockIsFree, hother q (by grind)]
    have hq : s.heap.prevblock b = q := by simpa using hpre
    have hq0 := i.phys.pos (b := q) (by simp)
    rcases hn.1 with h0 | h0
    · omega
    · exact hq ▸ h0
  · exact hr.right.congr fun c hc => hother c (by grind)

theorem insertFree (i : PoolInv s mp bs fl rl limbo stale) (hb : b ∈ limbo)
    (hn : NoFreeNeighbour s b) (hd : (insertedList s mp b next).Represents 0 fl')
    (hfl : ∀ c, c ∈ fl' ↔ c = b ∨ c ∈ fl)
    (hnext : ∀ c, c ∉ fl → c ≠ b → (insertedList s mp b next).next c = s.heap.nextblock c) :
    Inserted s (s.insertFree mp b next) mp b fl rl (limbo.erase b) (stale.filter (· ≠ b)) fl' := by
  refine ⟨⟨bs, i.toLayout.insertFree hb hd hfl hnext, i.apart_insertFree hb hn⟩, hfl, ?_, ?_, ?_⟩
  · simp [insertFree_eq]
  · simp [insertFree_eq]
  · rw [insertFree_eq]

/-- One turn of the insertion loop, from a free block. -/
theorem memFreeLoop_cases (i : PoolInv s mp bs (f ++ next :: g) rl limbo stale) (hb : b ∈ limbo)
    (hn : NoFreeNeighbour s b) :
    (∃ n g', next < b ∧ g = n :: g' ∧ memFreeLoop s mp b next =
      ⟨s.setPool mp { s.pools mp with poolFreeCurrentBlock := n }, .window n, [next]⟩) ∨
    (∃ reads, (next < b → g = []) ∧ (∀ c ∈ reads, c = next) ∧
      memFreeLoop s mp b next = ⟨s.insertFree mp b next, .returned .ok, reads⟩ ∧
      Inserted s (s.insertFree mp b next) mp b (f ++ next :: g) rl (limbo.erase b)
        (stale.filter (· ≠ b)) (insertedNodes f g next b)) := by
  obtain ⟨hbs, -, hbu⟩ := i.of_limbo hb
  have hb0 := (i.phys.pos hbs).ne'
  have hbf := i.notMem_free hbu
  have hnext : s.heap.nextblock next = g.headD 0 := i.free.next_eq
  have hins : (next < b → g = []) → Inserted s (s.insertFree mp b next) mp b (f ++ next :: g) rl
      (limbo.erase b) (stale.filter (· ≠ b)) (insertedNodes f g next b) := by
    intro hlast
    obtain ⟨h1, h2⟩ := insertedList_spec i.free hbf hb0 hlast
    exact i.insertFree hb hn h1 (fun c => mem_insertedNodes) h2
  unfold memFreeLoop
  by_cases hlt : next < b
  · cases g with
    | nil =>
      right
      refine ⟨[next], fun _ => rfl, by simp, ?_, hins fun _ => rfl⟩
      simp [hlt, hnext]
    | cons n g' =>
      left
      have hn0 : n ≠ 0 := by
        rintro rfl
        exact i.free.null_notMem (by simp)
      refine ⟨n, g', hlt, rfl, ?_⟩
      simp [hlt, hnext, hn0]
  · right
    refine ⟨[], fun h => absurd h hlt, by simp, ?_, hins fun h => absurd h hlt⟩
    simp [hlt]

end PoolInv
end Mqx.Mem
