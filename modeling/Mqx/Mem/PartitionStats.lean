import Mqx.Mem.PartitionCalls

/-!
# The statistics of the partitions

`TOTAL_BLOCKS` counts the blocks of a growth before they exist. What a step does to the totals
and to `MAX_BLOCKS_USED`, and what callers and the memory manager have to keep to for it.
-/

namespace Mqx.Mem.Partition

open Function (update)
open PointerList

/-- Blocks inside an area that does not wrap are distinct. -/
theorem blocksFrom_spec {size n b : ℕ} (hsize : 0 < size) (h : b + size * n ≤ 2 ^ 32) :
    (∀ c ∈ blocksFrom size n b, b ≤ c ∧ c < b + size * n) ∧ (blocksFrom size n b).Nodup := by
  induction n generalizing b with
  | zero => exact ⟨fun c hc => absurd hc List.not_mem_nil, List.nodup_nil⟩
  | succ n ih =>
    have hmul : size * (n + 1) = size * n + size := Nat.mul_succ size n
    cases n with
    | zero =>
      refine ⟨fun c hc => ?_, List.nodup_singleton b⟩
      obtain rfl := List.mem_singleton.mp hc
      omega
    | succ n =>
      have hpos : 0 < size * (n + 1) := Nat.mul_pos hsize (Nat.succ_pos n)
      have hadd : add32 b size = b + size := Nat.mod_eq_of_lt (by omega)
      obtain ⟨hmem, hnodup⟩ := ih (b := b + size) (by omega)
      have hlist : blocksFrom size (n + 1 + 1) b = b :: blocksFrom size (n + 1) (b + size) := by
        rw [blocksFrom, hadd]
      rw [hlist]
      constructor
      · intro c hc
        rcases List.mem_cons.mp hc with rfl | hc
        · omega
        · have hbound := hmem c hc
          omega
      · refine List.nodup_cons.mpr ⟨fun hc => ?_, hnodup⟩
        have hbound := hmem b hc
        omega

/-- The first block of an area follows its head, with room for the alignment. -/
theorem firstIblockOf_bounds {a : ℕ} (h : a + 31 < 2 ^ 32) :
    a + 16 ≤ firstIblockOf a ∧ firstIblockOf a ≤ a + 31 := by
  have h₁ : add32 a sizeofPartpoolBlock = a + 16 := Nat.mod_eq_of_lt (by
    simp only [sizeofPartpoolBlock]
    omega)
  have h₂ : add32 (a + 16) pspMemoryAlignment = a + 31 := Nat.mod_eq_of_lt (by
    simp only [pspMemoryAlignment, pspCacheLineSize]
    omega)
  simp only [firstIblockOf, memoryAlignValLarger, alignAddrToLowerMem, h₁, h₂, pspCacheLineSize]
  omega

/-- The blocks of an area lie inside the memory that was asked for. -/
theorem blocksFrom_area {size n a : ℕ} (hsize : 0 < size) (h : a + (31 + size * n) ≤ 2 ^ 32) :
    (∀ c ∈ blocksFrom size n (firstIblockOf a), a ≤ c ∧ c < a + (31 + size * n)) ∧
      (blocksFrom size n (firstIblockOf a)).Nodup := by
  cases n with
  | zero => exact ⟨fun c hc => absurd hc List.not_mem_nil, List.nodup_nil⟩
  | succ n =>
    have hpos : 0 < size * (n + 1) := Nat.mul_pos hsize (Nat.succ_pos n)
    obtain ⟨hlow, hhigh⟩ := firstIblockOf_bounds (a := a) (by omega)
    obtain ⟨hmem, hnodup⟩ := blocksFrom_spec (n := n + 1) (b := firstIblockOf a) hsize (by omega)
    refine ⟨fun c hc => ?_, hnodup⟩
    have hbound := hmem c hc
    omega

namespace State

/-- An area of memory that neither the partitions nor a growth have anything in. -/
def Unused (s : State) (a size : ℕ) : Prop :=
  ∀ c, a ≤ c → c < a + size →
    c ≠ 0 ∧ c ∉ s.partitions ∧ (∀ p ∈ s.partitions, c ∉ s.made p) ∧ ∀ t, c ∉ s.places t

/-- What the callers and the memory manager promise. Tasks inside a growth make no other call;
memory is given to one only; a block that is freed is allocated, unless the owner is another,
and one that is transferred is allocated. -/
def Enabled (s : State) : Op → Prop
  | .alloc t p _ => t ∈ s.tasks ∧ s.growing t = none ∧ p ∈ s.partitions
  | .resume t memory =>
    match s.growing t with
    | none => False
    | some (.allocating p n _) =>
      ∀ a, memory = some a → a + (s.partpool p).growthBytes n ≤ 2 ^ 32 ∧
        s.Unused a ((s.partpool p).growthBytes n)
    | some _ => True
  | .extend t p location size =>
    t ∈ s.tasks ∧ s.growing t = none ∧ p ∈ s.partitions ∧ size < 2 ^ 32 ∧
      location + size ≤ 2 ^ 32 ∧ s.Unused location size
  | .free t b =>
    t ∈ s.tasks ∧ s.growing t = none ∧ ∃ p ∈ s.partitions, b ∈ s.made p ∧
      (s.Allocated p b ∨ (s.block b).taskId ≠ s.systemTaskId ∧ (s.block b).taskId ≠ t)
  | .transfer t b _ =>
    t ∈ s.tasks ∧ s.growing t = none ∧ ∃ p ∈ s.partitions, b ∈ s.made p ∧ s.Allocated p b
  | .taskCreate t => t ∉ s.tasks ∧ t ≠ 0
  | .taskDestroy t => t ∈ s.tasks

/-- A block may be taken: `TOTAL_BLOCKS` counts the blocks that exist, or there have been more
in use than it will make of them. -/
def Exact (s : State) (p : ℕ) : Prop :=
  (s.partpool p).available ≠ 0 → (s.partpool p).totalBlocks = (s.made p).length ∨
    (s.partpool p).totalBlocks - ((s.partpool p).available - 1) ≤ (s.partpool p).maxBlocksUsed

/-- What keeps clear of the defects: blocks are taken while the total is exact; the total and
the size of a growth do not wrap; the total is stored back as no other growth has changed it
meanwhile; no block is transferred to `MQX_NULL_TASK_ID`; and a task that is destroyed has its
blocks in areas that are linked. -/
def Regular (s : State) : Op → Prop
  | .alloc _ p _ =>
    s.Exact p ∧ ((s.partpool p).available = 0 → (s.partpool p).mayGrow = true →
      (s.partpool p).totalBlocks + (s.partpool p).growth < 2 ^ 32)
  | .resume t memory =>
    match s.growing t with
    | none => True
    | some (.allocating p n _) =>
      memory.isSome = true → 31 + (s.partpool p).blockSize * n < 2 ^ 32
    | some (.rollingBack p _ _ total) => total = (s.partpool p).totalBlocks
    | some (.extending p n _ total) =>
      total = (s.partpool p).totalBlocks ∧ total + n < 2 ^ 32
    | some (.adding _ _ _ _ _) => True
    | some (.retry p _) => s.Exact p
  | .transfer _ _ id => id ≠ 0
  | .taskDestroy t =>
    ∀ p ∈ s.partitions, ∀ b ∈ s.made p, s.Held t p b →
      ∃ area ∈ (s.partpool p).areas, b ∈ (s.partpool p).iblocks area
  | _ => True

/-- The limit of a partition is kept. -/
def Limited (s : State) (p : ℕ) : Prop :=
  (s.partpool p).maximumBlocks ≠ 0 →
    (s.partpool p).partitionType = .dynamic ∧
      (s.partpool p).totalBlocks ≤ (s.partpool p).maximumBlocks

/-- An allocation wants its block for the task or the system; `_partition_extend` is for static
partitions. -/
def Caller (s : State) (t : ℕ) (g : Growth) : Prop :=
  (∀ o, g.owner = some o → o = t ∨ o = s.systemTaskId) ∧
    (g.owner = none → (s.partpool g.part).partitionType = .static)

/-- Everything that a step keeps. -/
structure Good (s : State) : Prop where
  inv : s.Inv
  counted : ∀ p ∈ s.partitions, s.Counted p
  sized : ∀ p ∈ s.partitions,
    0 < (s.partpool p).blockSize ∧ (s.partpool p).maximumBlocks < 2 ^ 32
  used : ∀ p ∈ s.partitions, s.inUse p ≤ (s.partpool p).maxBlocksUsed
  caller : ∀ t g, s.growing t = some g → s.Caller t g

variable {s s' s'' : State} {p q b t id owner total : ℕ}

theorem Inv.inUse_add (h : s.Inv) (hp : p ∈ s.partitions) :
    s.inUse p + (s.partpool p).available = (s.made p).length := by
  obtain ⟨l, hl⟩ := h.parts p hp
  exact hl.inUse_add hp h.zero

/-- A step that takes no block. -/
structure Quiet (s s' : State) : Prop where
  good : s'.Good
  partitions : s'.partitions = s.partitions
  maximumBlocks : ∀ p, (s'.partpool p).maximumBlocks = (s.partpool p).maximumBlocks
  limited : ∀ p, s.Limited p → s'.Limited p
  maxBlocksUsed : ∀ p, (s'.partpool p).maxBlocksUsed = (s.partpool p).maxBlocksUsed
  inUse : ∀ p ∈ s.partitions, s'.inUse p ≤ s.inUse p

/-- What a step does to the statistics and limits. -/
structure Step (s s' : State) : Prop where
  good : s'.Good
  partitions : s'.partitions = s.partitions
  maximumBlocks : ∀ p, (s'.partpool p).maximumBlocks = (s.partpool p).maximumBlocks
  limited : ∀ p, s.Limited p → s'.Limited p
  maxBlocksUsed : ∀ p ∈ s.partitions,
    (s'.partpool p).maxBlocksUsed = max (s.partpool p).maxBlocksUsed (s'.inUse p)

theorem Quiet.refl (h : s.Good) : Quiet s s :=
  ⟨h, rfl, fun _ => rfl, fun _ h => h, fun _ => rfl, fun _ _ => le_rfl⟩

theorem Quiet.trans (h : Quiet s s') (h' : Quiet s' s'') : Quiet s s'' where
  good := h'.good
  partitions := h'.partitions.trans h.partitions
  maximumBlocks := fun p => (h'.maximumBlocks p).trans (h.maximumBlocks p)
  limited := fun p hl => h'.limited p (h.limited p hl)
  maxBlocksUsed := fun p => (h'.maxBlocksUsed p).trans (h.maxBlocksUsed p)
  inUse := fun p hp => (h'.inUse p (by rw [h.partitions]; exact hp)).trans (h.inUse p hp)

theorem Quiet.step (h : Quiet s s') (hg : s.Good) : Step s s' where
  good := h.good
  partitions := h.partitions
  maximumBlocks := h.maximumBlocks
  limited := h.limited
  maxBlocksUsed := by
    intro p hp
    rw [h.maxBlocksUsed, max_eq_left ((h.inUse p hp).trans (hg.used p hp))]

/-- A quiet step before another adds nothing to the statistics. -/
theorem Quiet.then (h : Quiet s s') (h' : Step s' s'') : Step s s'' where
  good := h'.good
  partitions := h'.partitions.trans h.partitions
  maximumBlocks := fun p => (h'.maximumBlocks p).trans (h.maximumBlocks p)
  limited := fun p hl => h'.limited p (h.limited p hl)
  maxBlocksUsed := by
    intro p hp
    rw [h'.maxBlocksUsed p (by rw [h.partitions]; exact hp), h.maxBlocksUsed]

theorem weight_of_ne {g : Option Growth} (hg : ∀ x, g = some x → x.part = p) (hq : q ≠ p) :
    Growth.weight q g = 0 := by
  cases g with
  | none => rfl
  | some x =>
    have hx : x.part = p := hg x rfl
    simp only [Growth.weight, hx, if_neg (Ne.symm hq)]

theorem setTotal_partpool_of_ne (hq : q ≠ p) :
    (s.setTotal p total).partpool q = s.partpool q :=
  Function.update_of_ne hq _ _

theorem setTotal_partpool_self :
    (s.setTotal p total).partpool p = { s.partpool p with totalBlocks := total } :=
  Function.update_self _ _ _

theorem setTotal_self : s.setTotal p (s.partpool p).totalBlocks = s := by
  simp [setTotal, setPartpool]

/-- A task comes to the next point of a growth, and the total with it. -/
theorem Good.setGrowth (h : s.Good) (ht : t ∈ s.tasks) (hp : p ∈ s.partitions)
    {g : Option Growth} (hpart : ∀ x, g = some x → x.part = p)
    (hold : ∀ x, s.growing t = some x → x.part = p) (htotal : total < 2 ^ 32)
    (hcount : (s.made p).length + s.pending p + Growth.weight p g ≤
      total + Growth.weight p (s.growing t))
    (hnew : ∀ x, g = some x → s.GrowthInv t x)
    (hapart : ∀ x, g = some x → ∀ b ∈ x.places (s.partpool x.part).blockSize,
      ∀ t', t' ≠ t → b ∉ s.places t')
    (hcaller : ∀ x, g = some x → s.Caller t x)
    (hlimit : s.Limited p → (s.partpool p).maximumBlocks ≠ 0 →
      total ≤ (s.partpool p).maximumBlocks) :
    Quiet s ((s.setTotal p total).setGrowing t g) := by
  have hsize : ∀ q, ((s.setTotal p total).partpool q).blockSize = (s.partpool q).blockSize := by
    intro q
    by_cases hq : q = p
    · rw [hq, setTotal_partpool_self]
    · rw [setTotal_partpool_of_ne hq]
  have hpool : ∀ q, ((s.setTotal p total).partpool q).maximumBlocks =
        (s.partpool q).maximumBlocks ∧
      ((s.setTotal p total).partpool q).partitionType = (s.partpool q).partitionType ∧
      ((s.setTotal p total).partpool q).maxBlocksUsed = (s.partpool q).maxBlocksUsed := by
    intro q
    by_cases hq : q = p
    · rw [hq, setTotal_partpool_self]
      exact ⟨rfl, rfl, rfl⟩
    · rw [setTotal_partpool_of_ne hq]
      exact ⟨rfl, rfl, rfl⟩
  have hinv : ((s.setTotal p total).setGrowing t g).Inv := by
    refine (h.inv.setTotal hp total).setGrowing (fun x hx => ?_) fun x hx b hb t' hne => ?_
    · have hgi := hnew x hx
      exact hgi.congr rfl hgi.task hsize rfl
    · rw [hsize] at hb
      have hplaces : (s.setTotal p total).places t' = s.places t' := places_congr rfl hsize
      rw [hplaces]
      exact hapart x hx b hb t' hne
  exact {
    good := {
      inv := hinv
      counted := by
        intro q hq
        have hsum := pending_setGrowing (s := s) (p := q) ht g
        have hc := h.counted q hq
        simp only [Counted] at hc ⊢
        change (s.made q).length + (s.setGrowing t g).pending q ≤
            ((s.setTotal p total).partpool q).totalBlocks ∧
          ((s.setTotal p total).partpool q).totalBlocks < 2 ^ 32
        by_cases hqp : q = p
        · subst hqp
          rw [setTotal_partpool_self]
          refine ⟨?_, htotal⟩
          show (s.made q).length + (s.setGrowing t g).pending q ≤ total
          omega
        · rw [setTotal_partpool_of_ne hqp]
          rw [weight_of_ne hpart hqp, weight_of_ne hold hqp] at hsum
          exact ⟨by omega, hc.2⟩
      sized := by
        intro q hq
        show 0 < ((s.setTotal p total).partpool q).blockSize ∧
          ((s.setTotal p total).partpool q).maximumBlocks < 2 ^ 32
        rw [hsize, (hpool q).1]
        exact h.sized q hq
      used := by
        intro q hq
        show s.inUse q ≤ ((s.setTotal p total).partpool q).maxBlocksUsed
        rw [(hpool q).2.2]
        exact h.used q hq
      caller := by
        intro t' x hx
        change update s.growing t g t' = some x at hx
        have hold : s.Caller t' x := by
          by_cases hne : t' = t
          · rw [hne] at hx ⊢
            rw [Function.update_self] at hx
            exact hcaller x hx
          · rw [Function.update_of_ne hne] at hx
            exact h.caller t' x hx
        refine ⟨hold.1, fun ho => ?_⟩
        change ((s.setTotal p total).partpool x.part).partitionType = .static
        rw [(hpool x.part).2.1]
        exact hold.2 ho }
    partitions := rfl
    maximumBlocks := fun q => (hpool q).1
    limited := by
      intro q hl
      simp only [Limited]
      change ((s.setTotal p total).partpool q).maximumBlocks ≠ 0 →
        ((s.setTotal p total).partpool q).partitionType = .dynamic ∧
        ((s.setTotal p total).partpool q).totalBlocks ≤
          ((s.setTotal p total).partpool q).maximumBlocks
      rw [(hpool q).1, (hpool q).2.1]
      intro hmax
      refine ⟨(hl hmax).1, ?_⟩
      by_cases hqp : q = p
      · subst hqp
        rw [setTotal_partpool_self]
        exact hlimit hl hmax
      · rw [setTotal_partpool_of_ne hqp]
        exact (hl hmax).2
    maxBlocksUsed := fun q => (hpool q).2.2
    inUse := fun _ _ => le_rfl }

/-- Blocks that go back are a quiet step. -/
theorem Shrunk.quiet (h : Shrunk s s') (hg : s.Good) (hinv : s'.Inv) : Quiet s s' := by
  have hpool : ∀ q, (s'.partpool q).maximumBlocks = (s.partpool q).maximumBlocks ∧
      (s'.partpool q).partitionType = (s.partpool q).partitionType ∧
      (s'.partpool q).maxBlocksUsed = (s.partpool q).maxBlocksUsed ∧
      (s'.partpool q).totalBlocks = (s.partpool q).totalBlocks := by
    intro q
    obtain ⟨f, a, hfa⟩ := h.partpool q
    rw [hfa]
    exact ⟨rfl, rfl, rfl, rfl⟩
  exact {
    good := {
      inv := hinv
      counted := by
        rw [h.partitions]
        exact fun q hq => h.counted (hg.counted q hq)
      sized := by
        rw [h.partitions]
        intro q hq
        rw [h.blockSize, (hpool q).1]
        exact hg.sized q hq
      used := by
        rw [h.partitions]
        intro q hq
        rw [(hpool q).2.2.1]
        exact (h.inUse_le hq).trans (hg.used q hq)
      caller := by
        rw [h.growing]
        intro t g hx
        have hold := hg.caller t g hx
        simp only [Caller] at hold ⊢
        rw [h.systemTaskId, (hpool g.part).2.1]
        exact hold }
    partitions := h.partitions
    maximumBlocks := fun q => (hpool q).1
    limited := by
      intro q hl
      simp only [Limited]
      rw [(hpool q).1, (hpool q).2.1, (hpool q).2.2.2]
      exact hl
    maxBlocksUsed := fun q => (hpool q).2.2.1
    inUse := fun _ hq => h.inUse_le hq }

/-- The first free block has a valid header. -/
theorem Inv.freeList_spec (h : s.Inv) (hp : p ∈ s.partitions)
    (hav : (s.partpool p).available ≠ 0) :
    (s.partpool p).freeList ∈ s.made p ∧
      (s.block (s.partpool p).freeList).validChecksum = true := by
  obtain ⟨l, hl⟩ := h.parts p hp
  cases l with
  | nil => exact absurd hl.available hav
  | cons b l =>
    have hhead : (s.partpool p).freeList = b := hl.linked.1
    have hb := hl.freeMade b List.mem_cons_self
    rw [hhead]
    exact ⟨hb, (hl.header b hb).2.2⟩

/-- A block is taken while the total is exact: the statistics count it. -/
theorem Good.take (h : s.Good) (hp : p ∈ s.partitions) (hav : (s.partpool p).available ≠ 0)
    (howner : s.IsOwner owner) (hexact : s.Exact p) : Step s (s.takeBlock p owner).1 := by
  have hcount := h.counted p hp
  have hsum := h.inv.inUse_add hp
  obtain ⟨hfree, hvalid⟩ := h.inv.freeList_spec hp hav
  have hinv := h.inv.take hp hcount.made_lt hav howner
  have hsum' := hinv.inUse_add (p := p) (by rw [takeBlock_eq hvalid]; exact hp)
  have hother : ∀ q ∈ s.partitions, q ≠ p → (s.takeBlock p owner).1.inUse q = s.inUse q := by
    intro q hq hqp
    rw [takeBlock_eq hvalid]
    refine List.countP_congr fun c hc => ?_
    have hne : c ≠ (s.partpool p).freeList := by
      rintro rfl
      exact h.inv.apart q hq p hp hqp _ hc hfree
    rw [decide_eq_true_eq, decide_eq_true_eq]
    simp only [Allocated, Function.update_of_ne hne]
  have hle : (s.partpool p).available ≤ (s.partpool p).totalBlocks := by
    obtain ⟨hc, -⟩ := hcount
    omega
  have hlt : (s.partpool p).totalBlocks < 2 ^ 32 := hcount.2
  have hav₁ : sub32 (s.partpool p).available 1 = (s.partpool p).available - 1 :=
    sub32_eq (Nat.one_le_iff_ne_zero.mpr hav) (hle.trans_lt hlt)
  have hused : sub32 (s.partpool p).totalBlocks ((s.partpool p).available - 1) =
      (s.partpool p).totalBlocks - ((s.partpool p).available - 1) :=
    sub32_eq ((Nat.sub_le _ _).trans hle) hlt
  have hmax : ((s.takeBlock p owner).1.partpool p).maxBlocksUsed =
      max (s.partpool p).maxBlocksUsed
        ((s.partpool p).totalBlocks - ((s.partpool p).available - 1)) := by
    rw [takeBlock_eq hvalid]
    simp only [Function.update_self, hav₁, hused]
  have hmade : (s.takeBlock p owner).1.made = s.made := by rw [takeBlock_eq hvalid]
  have hin : (s.takeBlock p owner).1.inUse p =
      (s.made p).length - ((s.partpool p).available - 1) := by
    have hav' : ((s.takeBlock p owner).1.partpool p).available = (s.partpool p).available - 1 := by
      rw [takeBlock_eq hvalid]
      simp only [Function.update_self, hav₁]
    rw [hav', hmade] at hsum'
    exact Nat.eq_sub_of_add_eq hsum'
  have hstat : ((s.takeBlock p owner).1.partpool p).maxBlocksUsed =
      max (s.partpool p).maxBlocksUsed ((s.takeBlock p owner).1.inUse p) := by
    rw [hmax, hin]
    obtain ⟨hc, -⟩ := hcount
    rcases hexact hav with he | he <;> omega
  have hpool : ∀ q, q ≠ p → (s.takeBlock p owner).1.partpool q = s.partpool q := by
    intro q hq
    rw [takeBlock_eq hvalid]
    exact Function.update_of_ne hq _ _
  have hself : ((s.takeBlock p owner).1.partpool p).totalBlocks = (s.partpool p).totalBlocks ∧
      ((s.takeBlock p owner).1.partpool p).blockSize = (s.partpool p).blockSize ∧
      ((s.takeBlock p owner).1.partpool p).maximumBlocks = (s.partpool p).maximumBlocks ∧
      ((s.takeBlock p owner).1.partpool p).partitionType = (s.partpool p).partitionType := by
    rw [takeBlock_eq hvalid]
    simp only [Function.update_self, and_self]
  have hparts : (s.takeBlock p owner).1.partitions = s.partitions := by rw [takeBlock_eq hvalid]
  have hcounted : ∀ q, (s.takeBlock p owner).1.pending q = s.pending q := by
    intro q
    rw [takeBlock_eq hvalid]
    rfl
  have hgrow : (s.takeBlock p owner).1.growing = s.growing := by rw [takeBlock_eq hvalid]
  have hsystem : (s.takeBlock p owner).1.systemTaskId = s.systemTaskId := by
    rw [takeBlock_eq hvalid]
  exact {
    good := {
      inv := hinv
      counted := by
        rw [hparts]
        intro q hq
        have hc := h.counted q hq
        simp only [Counted] at hc ⊢
        rw [hmade, hcounted]
        by_cases hqp : q = p
        · rw [hqp, hself.1]
          exact hcount
        · rw [hpool q hqp]
          exact hc
      sized := by
        rw [hparts]
        intro q hq
        by_cases hqp : q = p
        · rw [hqp, hself.2.1, hself.2.2.1]
          exact h.sized p hp
        · rw [hpool q hqp]
          exact h.sized q hq
      used := by
        rw [hparts]
        intro q hq
        by_cases hqp : q = p
        · rw [hqp, hstat]
          exact le_max_right _ _
        · rw [hother q hq hqp, hpool q hqp]
          exact h.used q hq
      caller := by
        rw [hgrow]
        intro t g hx
        have hold := h.caller t g hx
        simp only [Caller] at hold ⊢
        rw [hsystem]
        by_cases hqp : g.part = p
        · rw [hqp] at hold ⊢
          rw [hself.2.2.2]
          exact hold
        · rw [hpool _ hqp]
          exact hold }
    partitions := hparts
    maximumBlocks := by
      intro q
      by_cases hqp : q = p
      · rw [hqp, hself.2.2.1]
      · rw [hpool q hqp]
    limited := by
      intro q hl
      simp only [Limited]
      by_cases hqp : q = p
      · rw [hqp, hself.1, hself.2.2.1, hself.2.2.2]
        exact hqp ▸ hl
      · rw [hpool q hqp]
        exact hl
    maxBlocksUsed := by
      intro q hq
      by_cases hqp : q = p
      · rw [hqp]
        exact hstat
      · rw [hpool q hqp, hother q hq hqp, max_eq_left (h.used q hq)] }

/-- A growth goes on and the total stays. -/
theorem Good.setGrowing (h : s.Good) (ht : t ∈ s.tasks) (hp : p ∈ s.partitions)
    {g : Option Growth} (hpart : ∀ x, g = some x → x.part = p)
    (hold : ∀ x, s.growing t = some x → x.part = p)
    (hcount : Growth.weight p g ≤ Growth.weight p (s.growing t))
    (hnew : ∀ x, g = some x → s.GrowthInv t x)
    (hapart : ∀ x, g = some x → ∀ b ∈ x.places (s.partpool x.part).blockSize,
      ∀ t', t' ≠ t → b ∉ s.places t')
    (hcaller : ∀ x, g = some x → s.Caller t x) : Quiet s (s.setGrowing t g) := by
  have hc := h.counted p hp
  simp only [Counted] at hc
  have hgrowth : Quiet s ((s.setTotal p (s.partpool p).totalBlocks).setGrowing t g) :=
    h.setGrowth ht hp hpart hold hc.2 (by omega) hnew hapart hcaller fun hl hmax => (hl hmax).2
  rw [setTotal_self] at hgrowth
  exact hgrowth

theorem Inv.pool_valid (h : s.Inv) (hp : p ∈ s.partitions) :
    (s.partpool p).pool.valid = partitionValid :=
  (h.areas_of hp _ List.mem_cons_self).1

/-- A growth that has no addresses in hand. -/
theorem growthInv_of_places {g : Growth} (ht : t ∈ s.tasks) (hp : g.part ∈ s.partitions)
    (hplaces : ∀ size, g.places size = []) (harea : ∀ p area b left o, g ≠ .adding p area b left o) :
    s.GrowthInv t g where
  task := ht
  part := hp
  nodup := by rw [hplaces]; exact List.nodup_nil
  fresh := by
    rw [hplaces]
    exact fun b hb => absurd hb List.not_mem_nil
  area := fun p area b left o hg => absurd hg (harea p area b left o)

theorem growth_le (hmax : (s.partpool p).maximumBlocks < 2 ^ 32)
    (hgrow : (s.partpool p).mayGrow = true) (hne : (s.partpool p).maximumBlocks ≠ 0) :
    (s.partpool p).totalBlocks + (s.partpool p).growth ≤ (s.partpool p).maximumBlocks := by
  have hlt : (s.partpool p).totalBlocks < (s.partpool p).maximumBlocks := by
    simp only [Partpool.mayGrow, Bool.and_eq_true, Bool.or_eq_true, decide_eq_true_eq] at hgrow
    exact hgrow.2.resolve_left hne
  have hsub : sub32 (s.partpool p).maximumBlocks (s.partpool p).totalBlocks =
      (s.partpool p).maximumBlocks - (s.partpool p).totalBlocks := sub32_eq hlt.le hmax
  unfold Partpool.growth
  rw [hsub]
  split <;> omega

theorem caller_of_owner {g : Growth} (howner : owner = t ∨ owner = s.systemTaskId)
    (hg : g.owner = some owner) : s.Caller t g := by
  refine ⟨fun o ho => ?_, fun ho => ?_⟩
  · obtain rfl := Option.some.inj (hg.symm.trans ho)
    exact howner
  · exact absurd (hg.symm.trans ho) (Option.some_ne_none owner)

/-- An allocation takes a block, starts to grow, or fails. -/
theorem Good.partitionAlloc (h : s.Good) (ht : t ∈ s.tasks) (hg : s.growing t = none)
    (hp : p ∈ s.partitions) (howner : owner = t ∨ owner = s.systemTaskId) (hexact : s.Exact p)
    (hfits : (s.partpool p).available = 0 → (s.partpool p).mayGrow = true →
      (s.partpool p).totalBlocks + (s.partpool p).growth < 2 ^ 32) :
    Step s (s.partitionAlloc t p owner).1 := by
  have hvalid : ¬ (s.partpool p).pool.valid ≠ partitionValid :=
    not_not_intro (h.inv.pool_valid hp)
  have hisowner : s.IsOwner owner := by
    rcases howner with rfl | rfl
    · exact .inl ht
    · exact .inr rfl
  unfold State.partitionAlloc
  simp only [if_neg hvalid]
  by_cases hav : (s.partpool p).available = 0
  · rw [if_pos hav]
    by_cases hgrow : (s.partpool p).mayGrow = true
    · rw [if_pos hgrow]
      have hfit := hfits hav hgrow
      have hc := h.counted p hp
      simp only [Counted] at hc
      have hadd : add32 (s.partpool p).totalBlocks (s.partpool p).growth =
          (s.partpool p).totalBlocks + (s.partpool p).growth := Nat.mod_eq_of_lt hfit
      refine Quiet.step (h.setGrowth ht hp ?_ ?_ ?_ ?_ ?_ ?_ ?_ ?_) h
      · rintro x ⟨⟩
        rfl
      · rw [hg]
        exact fun x hx => absurd hx.symm (Option.some_ne_none x)
      · rw [hadd]
        exact hfit
      · rw [hadd, hg]
        simp only [Growth.weight, Growth.part, Growth.pending, if_true]
        omega
      · rintro x ⟨⟩
        exact growthInv_of_places ht hp (fun _ => rfl) fun _ _ _ _ _ hx => by cases hx
      · rintro x ⟨⟩
        exact fun b hb => absurd hb List.not_mem_nil
      · rintro x ⟨⟩
        exact caller_of_owner howner rfl
      · intro _ hmax
        rw [hadd]
        exact growth_le (h.sized p hp).2 hgrow hmax
    · rw [if_neg hgrow]
      exact (Quiet.refl h).step h
  · rw [if_neg hav]
    exact h.take hp hav hisowner hexact

/-- A growth that begins to add blocks in memory that nobody uses. -/
theorem growthInv_extendInternal {a n : ℕ} {o : Option ℕ} (ht : t ∈ s.tasks)
    (hp : p ∈ s.partitions)
    (hnodup : (blocksFrom (s.partpool p).blockSize n (firstIblockOf a)).Nodup)
    (hfresh : ∀ b ∈ blocksFrom (s.partpool p).blockSize n (firstIblockOf a),
      b ≠ 0 ∧ b ∉ s.partitions ∧ ∀ q ∈ s.partitions, b ∉ s.made q) :
    s.GrowthInv t (extendInternal p a n o) where
  task := ht
  part := hp
  nodup := hnodup
  fresh := hfresh
  area := by
    rintro p' area b left owner ⟨⟩
    exact ⟨rfl, fun c hc => .inr hc⟩

/-- `_mem_alloc_system` has returned. -/
theorem Good.allocated {n : ℕ} {memory : Option ℕ} (h : s.Good)
    (hg : s.growing t = some (.allocating p n owner))
    (hmem : ∀ a, memory = some a → a + (s.partpool p).growthBytes n ≤ 2 ^ 32 ∧
      s.Unused a ((s.partpool p).growthBytes n))
    (hfits : memory.isSome = true → 31 + (s.partpool p).blockSize * n < 2 ^ 32) :
    Quiet s (s.resume t memory).1 := by
  have hgi := h.inv.growth t _ hg
  have hp : p ∈ s.partitions := hgi.part
  have hold : ∀ x, s.growing t = some x → x.part = p := by
    rw [hg]
    rintro x ⟨⟩
    rfl
  have howner : owner = t ∨ owner = s.systemTaskId := (h.caller t _ hg).1 owner rfl
  simp only [State.resume, hg]
  cases memory with
  | none =>
    refine h.setGrowing hgi.task hp ?_ hold ?_ ?_ ?_ ?_
    · rintro x ⟨⟩
      rfl
    · rw [hg]
      exact le_rfl
    · rintro x ⟨⟩
      exact growthInv_of_places hgi.task hp (fun _ => rfl) fun _ _ _ _ _ hx => by cases hx
    · rintro x ⟨⟩
      exact fun b hb => absurd hb List.not_mem_nil
    · rintro x ⟨⟩
      exact caller_of_owner howner rfl
  | some a =>
    have hfit := hfits rfl
    have hbytes : (s.partpool p).growthBytes n = 31 + (s.partpool p).blockSize * n := by
      have hmul : (s.partpool p).blockSize * n % 2 ^ 32 = (s.partpool p).blockSize * n :=
        Nat.mod_eq_of_lt (by omega)
      rw [Partpool.growthBytes, hmul]
      exact Nat.mod_eq_of_lt hfit
    obtain ⟨hle, hunused⟩ := hmem a rfl
    rw [hbytes] at hle hunused
    obtain ⟨hin, hnodup⟩ := blocksFrom_area (h.sized p hp).1 hle
    have hfree := fun c hc => hunused c (hin c hc).1 (hin c hc).2
    refine h.setGrowing hgi.task hp ?_ hold ?_ ?_ ?_ ?_
    · rintro x ⟨⟩
      rfl
    · rw [hg]
      exact le_rfl
    · rintro x ⟨⟩
      exact growthInv_extendInternal hgi.task hp hnodup fun b hb =>
        ⟨(hfree b hb).1, (hfree b hb).2.1, (hfree b hb).2.2.1⟩
    · rintro x ⟨⟩
      exact fun b hb t' _ => (hfree b hb).2.2.2 t'
    · rintro x ⟨⟩
      exact caller_of_owner howner rfl

/-- A growth that got no memory takes its blocks out of the total again. -/
theorem Good.rolledBack {n : ℕ} {memory : Option ℕ} (h : s.Good)
    (hg : s.growing t = some (.rollingBack p n owner total))
    (htotal : total = (s.partpool p).totalBlocks) : Quiet s (s.resume t memory).1 := by
  have hgi := h.inv.growth t _ hg
  have hp : p ∈ s.partitions := hgi.part
  have hc := h.counted p hp
  have hle := weight_le_pending (s := s) (p := p) hgi.task
  have hweight : Growth.weight p (s.growing t) = n := by
    rw [hg]
    simp only [Growth.weight, Growth.part, Growth.pending, if_true]
  simp only [Counted] at hc
  have hsub : sub32 total n = (s.partpool p).totalBlocks - n := by
    rw [htotal]
    exact sub32_eq (by omega) hc.2
  simp only [State.resume, hg, hsub]
  refine h.setGrowth hgi.task hp ?_ ?_ (by omega) ?_ ?_ ?_ ?_ ?_
  · rintro x ⟨⟩
    rfl
  · rw [hg]
    rintro x ⟨⟩
    rfl
  · rw [hweight]
    simp only [Growth.weight, Growth.part, Growth.pending, if_true]
    omega
  · rintro x ⟨⟩
    exact growthInv_of_places hgi.task hp (fun _ => rfl) fun _ _ _ _ _ hx => by cases hx
  · rintro x ⟨⟩
    exact fun b hb => absurd hb List.not_mem_nil
  · rintro x ⟨⟩
    exact caller_of_owner ((h.caller t _ hg).1 owner rfl) rfl
  · intro hl hmax
    exact (Nat.sub_le _ _).trans (hl hmax).2

/-- A static extension is in the total and begins to add its blocks. -/
theorem Good.extended {n location : ℕ} {memory : Option ℕ} (h : s.Good)
    (hg : s.growing t = some (.extending p n location total))
    (htotal : total = (s.partpool p).totalBlocks) (hfits : total + n < 2 ^ 32) : Quiet s (s.resume t memory).1 := by
  have hgi := h.inv.growth t _ hg
  have hp : p ∈ s.partitions := hgi.part
  have hc := h.counted p hp
  simp only [Counted] at hc
  have hadd : add32 total n = total + n := Nat.mod_eq_of_lt hfits
  simp only [State.resume, hg, hadd]
  refine h.setGrowth hgi.task hp ?_ ?_ hfits ?_ ?_ ?_ ?_ ?_
  · rintro x ⟨⟩
    rfl
  · rw [hg]
    rintro x ⟨⟩
    rfl
  · rw [hg]
    simp only [extendInternal, Growth.weight, Growth.part, Growth.pending, if_true]
    omega
  · rintro x ⟨⟩
    exact growthInv_extendInternal hgi.task hp hgi.nodup hgi.fresh
  · rintro x ⟨⟩
    intro b hb t' hne
    refine h.inv.growthApart t t' (Ne.symm hne) b ?_
    rw [places_some hg]
    exact hb
  · rintro x ⟨⟩
    have hcaller := h.caller t _ hg
    exact ⟨hcaller.1, hcaller.2⟩
  · intro hl hmax
    have hdynamic := (hl hmax).1
    have hstatic : (s.partpool p).partitionType = .static := (h.caller t _ hg).2 rfl
    rw [hstatic] at hdynamic
    exact absurd hdynamic (by decide)

end State

end Mqx.Mem.Partition
