import Mathlib.Algebra.BigOperators.Group.Finset.Basic
import Mathlib.Data.List.Perm.Basic
import Mqx.Mem.Partition

/-!
# What holds of partitions

The invariant says where every block of a partition is: on its free list, or allocated, with the
partition behind its link. A growth that is under way has addresses that it will add blocks at;
nobody else has these.
-/

namespace Mqx.Mem.Partition

open Function (update)
open PointerList

namespace Growth

/-- The partition that grows. -/
def part : Growth → ℕ
  | .allocating p _ _ => p
  | .rollingBack p _ _ _ => p
  | .extending p _ _ _ => p
  | .adding p _ _ _ _ => p
  | .retry p _ => p

/-- The blocks that are counted in `TOTAL_BLOCKS` and have not been added. -/
def pending : Growth → ℕ
  | .allocating _ n _ => n
  | .rollingBack _ n _ _ => n
  | .adding _ _ _ left _ => left
  | _ => 0

/-- Where blocks will be added, when they are `size` apart. -/
def places (size : ℕ) : Growth → List ℕ
  | .extending _ n location _ => blocksFrom size n (firstIblockOf location)
  | .adding _ _ b left _ => blocksFrom size left b
  | _ => []

/-- The owner of the block that is wanted. -/
def owner : Growth → Option ℕ
  | .allocating _ _ owner => some owner
  | .rollingBack _ _ owner _ => some owner
  | .extending _ _ _ _ => none
  | .adding _ _ _ _ owner => owner
  | .retry _ owner => some owner

/-- The pending blocks of a growth in partition `p`. -/
def weight (p : ℕ) : Option Growth → ℕ
  | none => 0
  | some g => if g.part = p then g.pending else 0

end Growth

namespace State

variable (s : State)

/-- The pending blocks of all growths of a partition. -/
def pending (p : ℕ) : ℕ := ∑ t ∈ s.tasks, Growth.weight p (s.growing t)

/-- The addresses that the growth of a task has in hand. -/
def places (t : ℕ) : List ℕ :=
  match s.growing t with
  | none => []
  | some g => g.places (s.partpool g.part).blockSize

/-- A block is allocated: its link is the partition. -/
def Allocated (p b : ℕ) : Prop := (s.block b).link = p

instance (p b : ℕ) : Decidable (s.Allocated p b) := inferInstanceAs (Decidable (_ = _))

/-- The number of allocated blocks of a partition. -/
def inUse (p : ℕ) : ℕ := (s.made p).countP fun b => s.Allocated p b

/-- An owner of blocks: a task, or the system. -/
def IsOwner (id : ℕ) : Prop := id ∈ s.tasks ∨ id = s.systemTaskId

/-- The areas of a partition consist of its blocks. -/
def AreaOf (p : ℕ) (area : PartpoolBlock) : Prop :=
  area.valid = partitionValid ∧ ∀ b ∈ (s.partpool p).iblocks area, b ∈ s.made p

/-- Partition `p` with the free list `l`. -/
structure PartInv (p : ℕ) (l : List ℕ) : Prop where
  linked : Linked (fun b => (s.block b).link) (s.partpool p).freeList l 0
  nodup : l.Nodup
  freeMade : ∀ b ∈ l, b ∈ s.made p
  available : (s.partpool p).available = l.length
  allocated : ∀ b ∈ s.made p, b ∉ l → s.Allocated p b ∧ s.IsOwner (s.block b).taskId
  madeNodup : (s.made p).Nodup
  header : ∀ b ∈ s.made p, b ≠ 0 ∧ b ∉ s.partitions ∧ (s.block b).validChecksum = true
  areas : ∀ area ∈ (s.partpool p).areas, s.AreaOf p area

/-- What a growth has in hand is nobody else's, and its area is complete once it is done. -/
structure GrowthInv (t : ℕ) (g : Growth) : Prop where
  task : t ∈ s.tasks
  part : g.part ∈ s.partitions
  nodup : (g.places (s.partpool g.part).blockSize).Nodup
  fresh : ∀ b ∈ g.places (s.partpool g.part).blockSize,
    b ≠ 0 ∧ b ∉ s.partitions ∧ ∀ q ∈ s.partitions, b ∉ s.made q
  area : ∀ p area b left owner, g = .adding p area b left owner →
    area.valid = partitionValid ∧ ∀ c ∈ (s.partpool p).iblocks area,
      c ∈ s.made p ∨ c ∈ blocksFrom (s.partpool p).blockSize left b

/-- Where the blocks of all partitions are. -/
structure Inv : Prop where
  parts : ∀ p ∈ s.partitions, ∃ l, s.PartInv p l
  zero : 0 ∉ s.partitions
  apart : ∀ p ∈ s.partitions, ∀ q ∈ s.partitions, p ≠ q → ∀ b ∈ s.made p, b ∉ s.made q
  growth : ∀ t g, s.growing t = some g → s.GrowthInv t g
  growthApart : ∀ t t', t ≠ t' → ∀ b ∈ s.places t, b ∉ s.places t'

/-- `TOTAL_BLOCKS` has room for the blocks of a partition and the pending ones. -/
def Counted (p : ℕ) : Prop :=
  (s.made p).length + s.pending p ≤ (s.partpool p).totalBlocks ∧
    (s.partpool p).totalBlocks < 2 ^ 32

end State

namespace State

variable {s s' : State} {p q b t id : ℕ} {l : List ℕ}

theorem places_none (h : s.growing t = none) : s.places t = [] := by
  simp [places, h]

theorem places_some {g : Growth} (h : s.growing t = some g) :
    s.places t = g.places (s.partpool g.part).blockSize := by
  simp [places, h]

/-- A partition is as it was where its header, its blocks and their headers are. -/
theorem PartInv.congr (h : s.PartInv p l) (hpool : s'.partpool p = s.partpool p)
    (hmade : s'.made p = s.made p) (hblock : ∀ b ∈ s.made p, s'.block b = s.block b)
    (hparts : s'.partitions = s.partitions)
    (howner : ∀ b ∈ s.made p, b ∉ l → s'.IsOwner (s.block b).taskId) : s'.PartInv p l where
  linked := by
    rw [hpool]
    exact h.linked.congr fun b hb => by rw [hblock b (h.freeMade b hb)]
  nodup := h.nodup
  freeMade := by rw [hmade]; exact h.freeMade
  available := by rw [hpool]; exact h.available
  allocated := by
    rw [hmade]
    intro b hb hl
    have hal := (h.allocated b hb hl).1
    simp only [Allocated] at hal ⊢
    rw [hblock b hb]
    exact ⟨hal, howner b hb hl⟩
  madeNodup := by rw [hmade]; exact h.madeNodup
  header := by
    rw [hmade, hparts]
    intro b hb
    rw [hblock b hb]
    exact h.header b hb
  areas := by
    simp only [AreaOf]
    rw [hpool, hmade]
    exact h.areas

/-- The free list of a partition never links to the partition. -/
theorem PartInv.not_allocated (h : s.PartInv p l) (hp : p ∈ s.partitions)
    (hzero : 0 ∉ s.partitions) (hb : b ∈ l) : ¬ s.Allocated p b := by
  intro hal
  rcases h.linked.next_mem hb with hmem | hend
  · have hmade := h.freeMade _ hmem
    exact (h.header _ hmade).2.1 (by rw [hal]; exact hp)
  · exact hzero (by rw [← hend, hal]; exact hp)

theorem PartInv.free_iff (h : s.PartInv p l) (hp : p ∈ s.partitions) (hzero : 0 ∉ s.partitions)
    (hb : b ∈ s.made p) : b ∈ l ↔ ¬ s.Allocated p b := by
  constructor
  · exact h.not_allocated hp hzero
  · intro hal
    by_contra hl
    exact hal (h.allocated b hb hl).1

theorem PartInv.freeList_ne (h : s.PartInv p l) (hp : p ∈ s.partitions)
    (hzero : 0 ∉ s.partitions) : (s.partpool p).freeList ≠ p := by
  intro hhead
  by_cases hnull : (s.partpool p).freeList = 0
  · exact hzero (by rw [← hnull, hhead]; exact hp)
  · have hmem := h.freeMade _ (h.linked.head_mem hnull)
    exact (h.header _ hmem).2.1 (by rw [hhead]; exact hp)

/-- Every block is free or allocated. -/
theorem PartInv.inUse_add (h : s.PartInv p l) (hp : p ∈ s.partitions)
    (hzero : 0 ∉ s.partitions) : s.inUse p + (s.partpool p).available = (s.made p).length := by
  have hperm : ((s.made p).filter fun b => ¬ s.Allocated p b).Perm l := by
    refine (List.perm_ext_iff_of_nodup (h.madeNodup.filter _) h.nodup).mpr fun b => ?_
    rw [List.mem_filter, decide_eq_true_eq]
    constructor
    · intro hb
      exact (h.free_iff hp hzero hb.1).mpr hb.2
    · intro hb
      exact ⟨h.freeMade b hb, h.not_allocated hp hzero hb⟩
  have hcount := List.length_eq_countP_add_countP (fun b => decide (s.Allocated p b)) (l := s.made p)
  have hfree := List.countP_eq_length_filter (p := fun b => decide ¬ s.Allocated p b) (l := s.made p)
  rw [hperm.length_eq] at hfree
  rw [h.available, hcount, ← hfree]
  simp [inUse]

theorem pending_setGrowing (ht : t ∈ s.tasks) (g : Option Growth) :
    (s.setGrowing t g).pending p + Growth.weight p (s.growing t) =
      s.pending p + Growth.weight p g := by
  have hrest : ∑ x ∈ s.tasks.erase t, Growth.weight p ((s.setGrowing t g).growing x) =
      ∑ x ∈ s.tasks.erase t, Growth.weight p (s.growing x) := by
    refine Finset.sum_congr rfl fun x hx => ?_
    simp only [setGrowing]
    rw [Function.update_of_ne (Finset.ne_of_mem_erase hx)]
  have hold := Finset.add_sum_erase s.tasks (fun x => Growth.weight p (s.growing x)) ht
  have hnew := Finset.add_sum_erase s.tasks
    (fun x => Growth.weight p ((s.setGrowing t g).growing x)) ht
  rw [hrest] at hnew
  have hself : (s.setGrowing t g).growing t = g := Function.update_self _ _ _
  simp only [hself] at hnew
  simp only [pending]
  change ∑ x ∈ s.tasks, Growth.weight p ((s.setGrowing t g).growing x) + _ = _
  omega

/-- The pending blocks of one growth are among those of its partition. -/
theorem weight_le_pending (ht : t ∈ s.tasks) : Growth.weight p (s.growing t) ≤ s.pending p :=
  Finset.single_le_sum (f := fun x => Growth.weight p (s.growing x))
    (fun _ _ => Nat.zero_le _) ht

end State

end Mqx.Mem.Partition
