import Mqx.Mem.AllocInvariant

/-!
# Coalescing keeps a pool well formed

A block that is being released is added to a free left neighbour, which is on the
free list already, and takes the place of a free right neighbour. When both are free
the left neighbour moves to the place of the right one.
-/

namespace Mqx.Mem

open PointerList

/-- The stores of `joinPrev`, all at once. -/
theorem joinPrev_eq (h : Storeblocks) {q b m : ℕ} (hs : h.blocksize q + h.blocksize b < 2 ^ 32)
    (hm : add32 b (h.blocksize b) = m) (hbq : b ≠ q) (hmq : m ≠ q) (hmb : m ≠ b) :
    h.joinPrev b q =
    { h with
      taskNumber := Function.update h.taskNumber b 0
      nextblock := Function.update h.nextblock b 0
      blocksize := Function.update h.blocksize q (h.blocksize q + h.blocksize b)
      prevblock := Function.update h.prevblock m q
      checksum := Function.update (Function.update h.checksum q
        ((h.blocksize q + h.blocksize b + h.prevblock q + h.taskNumber q + h.memType q) % 2 ^ 32)) m
        ((h.blocksize m + q + h.taskNumber m + h.memType m) % 2 ^ 32) } := by
  simp [Storeblocks.joinPrev, Storeblocks.calcChecksum, Storeblocks.headerSum,
    Storeblocks.nextPhys, add32_of_lt hs, hm, hbq, hbq.symm, hmq, hmq.symm, hmb]

theorem joinNext_eq (h : Storeblocks) {b m k : ℕ} (hs : h.blocksize b + h.blocksize m < 2 ^ 32)
    (hk : add32 m (h.blocksize m) = k) (hmb : m ≠ b) (hkb : k ≠ b) :
    h.joinNext b m =
    { h with
      blocksize := Function.update h.blocksize b (h.blocksize b + h.blocksize m)
      prevblock := Function.update h.prevblock k b
      checksum := Function.update (Function.update h.checksum k
        ((h.blocksize k + b + h.taskNumber k + h.memType k) % 2 ^ 32)) b
        ((h.blocksize b + h.blocksize m + h.prevblock b + h.taskNumber b + h.memType b) % 2 ^ 32) } := by
  simp [Storeblocks.joinNext, Storeblocks.calcChecksum, Storeblocks.headerSum,
    Storeblocks.nextPhys, add32_of_lt hs, hk, hmb, hkb, hkb.symm]

/-- Blocks whose checksum stays out of date when the one of `b` is settled. -/
theorem mem_filter_ne (b : ℕ) {stale : List ℕ} :
    ∀ c ∈ stale, c ∈ stale.filter (· ≠ b) ∨ c = b := by
  intro c hc
  by_cases hcb : c = b
  · exact Or.inr hcb
  · exact Or.inl (by simp [hc, hcb])

namespace Layout

variable {s s' : Kernel} {mp : ℕ} {bs l r fl fl' limbo stale : List ℕ} {rl : ℕ → List ℕ}

/-- Taking a block out of `limbo` takes it out of the blocks in use. -/
theorem owned_erase (i : Layout s mp bs fl rl limbo stale) {b : ℕ} (hb : b ∈ limbo) (c : ℕ) :
    ((∃ t, c ∈ rl t) ∨ c ∈ limbo.erase b) ↔
      (c ∈ bs ∧ c ≠ (s.pools mp).poolEndPtr ∧ ¬s.heap.BlockIsFree c) ∧ c ≠ b := by
  rw [← i.owned, i.limbo_nodup.mem_erase_iff]
  have hres : c = b → ∀ t, c ∉ rl t := by
    rintro rfl t
    exact i.limbo_notMem c hb t
  grind

/-- A block that is being released is added to its free left neighbour. -/
theorem joinPrev {q b m : ℕ} (i : Layout s mp (l ++ q :: b :: m :: r) fl rl limbo stale)
    (hb : b ∈ limbo) :
    Layout { s with heap := s.heap.joinPrev b q } mp (l ++ q :: m :: r) fl rl (limbo.erase b)
      (stale.filter (· ≠ b)) := by
  have hbb := i.phys.bounds (b := b) (by simp)
  have hqb := i.phys.bounds (b := q) (by simp)
  have hq1 := i.phys.next_eq
  have hm1 : b + s.heap.blocksize b = m := by
    have hp : l ++ q :: b :: m :: r = (l ++ [q]) ++ b :: m :: r := by simp
    exact (hp ▸ i.phys).next_eq
  obtain ⟨-, hbe, hbu⟩ := i.of_limbo hb
  have hbq : b ≠ q := by omega
  have hmq : m ≠ q := by omega
  have hmb : m ≠ b := by omega
  have hheap := joinPrev_eq s.heap (q := q) (b := b) (m := m) (by omega)
    (by rw [add32_of_lt] <;> omega) hbq hmq hmb
  have hbf : b ∉ fl := i.notMem_free hbu
  have hmem : ∀ c, c ∈ l ++ q :: m :: r ↔ c ∈ l ++ q :: b :: m :: r ∧ c ≠ b := by
    intro c
    have hd := i.phys.nodup
    grind
  have hend : (s.pools mp).poolEndPtr ≠ b := hbe.symm
  rw [hheap]
  constructor
  · refine i.phys.merge ?_ ?_ ?_ ?_ ?_ (fun c hc => (mem_filter_ne b c hc).imp_right Or.inr) ?_
    · intro c hc
      have hcb := (i.phys.ne_pair (r := m :: r) (c := c) (by simp at hc; grind)).2
      have hcm : c ≠ m := by
        have hd := i.phys.nodup
        grind
      constructor <;> simp [hcb, hcm]
    all_goals simp [Storeblocks.ValidChecksum, Storeblocks.headerSum, hmq, hmb, hbq.symm,
      hmq.symm]
  · refine i.free.congr rfl ?_ ?_
    · intro c hc
      exact Function.update_of_ne (by rintro rfl; exact hbf hc) _ _
    · intro c _
      rfl
  · intro c
    rw [hmem, i.mem_free]
    by_cases hcb : c = b
    · simp [hcb, hbu]
    · simp [Storeblocks.BlockIsFree, hcb]
  · simpa [Storeblocks.BlockIsFree, hend] using i.end_used
  · intro t
    apply i.res_congr
    intro c hc
    exact Function.update_of_ne (by rintro rfl; exact i.limbo_notMem c hb t hc) _ _
  · exact i.res_nodup
  · intro t c hc
    have hcb : c ≠ b := by rintro rfl; exact i.limbo_notMem c hb t hc
    simpa [hcb] using i.res_task t c hc
  · exact i.limbo_nodup.erase b
  · intro c hc t
    exact i.limbo_notMem c (List.mem_of_mem_erase hc) t
  · intro c hc
    obtain ⟨hc, hcb⟩ := List.mem_filter.mp hc
    rw [i.limbo_nodup.mem_erase_iff]
    exact ⟨by simpa using hcb, i.stale_limbo c hc⟩
  · intro c
    rw [hmem, i.owned_erase hb]
    by_cases hcb : c = b
    · simp [hcb]
    · simp [Storeblocks.BlockIsFree, hcb]
  · intro c hc
    exact i.pool c ((i.owned c).mpr ((i.owned_erase hb c).mp hc).1)

/-- A block takes the place of its free right neighbour: `d` is the free list after
that, and the block was on the free list before or was being released. -/
theorem joinNext {b m k : ℕ} (i : Layout s mp (l ++ b :: m :: k :: r) fl rl limbo stale)
    (hb : s.heap.BlockIsFree b ∨ b ∈ limbo) (hm : s.heap.BlockIsFree m) {d : DList ℕ}
    (hd : d.Represents 0 fl') (hfl : ∀ c, c ∈ fl' ↔ c = b ∨ c ∈ fl ∧ c ≠ m)
    (hnext : ∀ c, ¬s.heap.BlockIsFree c → c ≠ b → d.next c = s.heap.nextblock c)
    (hheap : s'.heap = Storeblocks.joinNext { s.heap with
      taskNumber := Function.update s.heap.taskNumber b 0
      nextblock := d.next
      userArea := d.prev } b m)
    (hres : s'.memoryResourceList = s.memoryResourceList)
    (hptr : (s'.pools mp).poolPtr = (s.pools mp).poolPtr)
    (hend : (s'.pools mp).poolEndPtr = (s.pools mp).poolEndPtr)
    (hhead : (s'.pools mp).poolFreeListPtr = d.head) :
    Layout s' mp (l ++ b :: k :: r) fl' rl (limbo.erase b) (stale.filter (· ≠ b)) := by
  have hbb := i.phys.bounds (b := b) (by simp)
  have hmb := i.phys.bounds (b := m) (by simp)
  have hb1 := i.phys.next_eq
  have hm1 : m + s.heap.blocksize m = k := by
    have hp : l ++ b :: m :: k :: r = (l ++ [b]) ++ m :: k :: r := by simp
    exact (hp ▸ i.phys).next_eq
  have hnmb : m ≠ b := by omega
  have hnkb : k ≠ b := by omega
  have hnkm : k ≠ m := by omega
  rw [joinNext_eq _ (by simpa using by omega) (by simp only; rw [add32_of_lt] <;> omega)
    hnmb hnkb] at hheap
  simp only [Function.update_of_ne hnkb, Function.update_self]
    at hheap
  have hbres : ∀ t, b ∉ rl t := by
    intro t
    rcases hb with hb | hb
    · exact i.notMem_res hb t
    · exact i.limbo_notMem b hb t
  have hbend : b ≠ (s.pools mp).poolEndPtr := by
    rcases hb with hb | hb
    · rintro rfl
      exact i.end_used hb
    · exact (i.of_limbo hb).2.1
  have hmem : ∀ c, c ∈ l ++ b :: k :: r ↔ c ∈ l ++ b :: m :: k :: r ∧ c ≠ m := by
    intro c
    have hd := i.phys.nodup
    grind
  have howned : ∀ c, ((∃ t, c ∈ rl t) ∨ c ∈ limbo.erase b) ↔
      (c ∈ l ++ b :: m :: k :: r ∧ c ≠ (s.pools mp).poolEndPtr ∧ ¬s.heap.BlockIsFree c) ∧
        c ≠ b := by
    intro c
    by_cases hbl : b ∈ limbo
    · exact i.owned_erase hbl c
    · rw [List.erase_of_not_mem hbl, i.owned]
      have hbf := hb.resolve_right hbl
      grind
  constructor
  · rw [hptr, hend, hheap]
    refine i.phys.merge ?_ ?_ ?_ ?_ ?_ (fun c hc => (mem_filter_ne b c hc).imp_right Or.inl) ?_
    · intro c hc
      have hcb := (i.phys.ne_pair (r := k :: r) (c := c) (by simp at hc; grind)).2
      have hck : c ≠ k := by
        have hd := i.phys.nodup
        grind
      constructor <;> simp [hcb, hck]
    all_goals simp [Storeblocks.ValidChecksum, Storeblocks.headerSum, hnkb, hnkb.symm]
  · apply hd.congr hhead
    · simp [Kernel.freeList, hheap]
    · simp [Kernel.freeList, hheap]
  · intro c
    rw [hfl, hmem, i.mem_free, hheap]
    by_cases hcb : c = b
    · simp [hcb, Storeblocks.BlockIsFree, hnmb.symm]
    · simp only [hcb, Storeblocks.BlockIsFree, Function.update_of_ne hcb, false_or]
      tauto
  · rw [hend, hheap]
    simpa [Storeblocks.BlockIsFree, hbend.symm] using i.end_used
  · intro t
    rw [hres]
    apply i.res_congr
    intro c hc
    rw [hheap]
    apply hnext c (i.of_res hc).2.2
    rintro rfl
    exact hbres t hc
  · exact i.res_nodup
  · intro t c hc
    have hcb : c ≠ b := by rintro rfl; exact hbres t hc
    simpa [hheap, hcb] using i.res_task t c hc
  · exact i.limbo_nodup.erase b
  · intro c hc t
    exact i.limbo_notMem c (List.mem_of_mem_erase hc) t
  · intro c hc
    obtain ⟨hc, hcb⟩ := List.mem_filter.mp hc
    rw [i.limbo_nodup.mem_erase_iff]
    exact ⟨by simpa using hcb, i.stale_limbo c hc⟩
  · intro c
    rw [howned, hmem, hheap, hend]
    by_cases hcb : c = b
    · simp [hcb, Storeblocks.BlockIsFree]
    · simp only [Storeblocks.BlockIsFree, Function.update_of_ne hcb]
      have hcm : c = m → s.heap.taskNumber c = 0 := by
        rintro rfl
        exact hm
      tauto
  · intro c hc
    rw [hheap]
    exact i.pool c ((i.owned c).mpr ((howned c).mp hc).1)

end Layout

/-- The free list when `b` takes the place of `m`. -/
def takePlace (d : DList ℕ) (b m : ℕ) (coalesced : Bool) : DList ℕ :=
  DList.replace 0
    (if coalesced then d.unlink 0 b else { d with next := Function.update d.next b 0 }) m b

/-- The stores of `coalesceNext` when the right neighbour is free. -/
theorem coalesceNext_eq (s : Kernel) (mp : ℕ) {b m : ℕ} (coalesced : Bool)
    (hm : s.heap.nextPhys b = m) (hfree : s.heap.BlockIsFree m)
    (hb : coalesced = true → s.heap.BlockIsFree b) :
    s.coalesceNext mp b coalesced =
    ({ s with
      heap := Storeblocks.joinNext { s.heap with
        taskNumber := Function.update s.heap.taskNumber b 0
        nextblock := (takePlace (s.freeList mp) b m coalesced).next
        userArea := (takePlace (s.freeList mp) b m coalesced).prev } b m
      pools := Function.update s.pools mp { s.pools mp with
        poolAllocCurrentBlock := if (s.pools mp).poolAllocCurrentBlock = m then b
          else (s.pools mp).poolAllocCurrentBlock
        poolFreeListPtr := (takePlace (s.freeList mp) b m coalesced).head } }, true) := by
  unfold Kernel.coalesceNext
  simp only [hm, hfree, if_true]
  cases coalesced with
  | true =>
    have h0 : Function.update s.heap.taskNumber b 0 = s.heap.taskNumber := by
      rw [Function.update_eq_self_iff]
      exact (hb rfl).symm
    by_cases hc : (s.pools mp).poolAllocCurrentBlock = m
    · simp [hc, h0, Kernel.setPool, Kernel.setFreeList, Kernel.freeList, takePlace]
    · simp [hc, h0, Kernel.setFreeList, Kernel.freeList, takePlace]
  | false =>
    by_cases hc : (s.pools mp).poolAllocCurrentBlock = m
    · simp [hc, Kernel.setPool, Kernel.setFreeList, Kernel.freeList, takePlace, Kernel.markFree]
    · simp [hc, Kernel.setFreeList, Kernel.freeList, takePlace, Kernel.markFree]

theorem coalesceNext_memType (s : Kernel) (mp b : ℕ) (coalesced : Bool) :
    (s.coalesceNext mp b coalesced).1.heap.memType = s.heap.memType := by
  unfold Kernel.coalesceNext
  dsimp only
  split_ifs <;> rfl

/-- The list after `takePlace`, and the links it leaves alone. -/
theorem takePlace_spec {d : DList ℕ} {fl f g : List ℕ} {b m : ℕ} {coalesced : Bool}
    (hd : d.Represents 0 fl) (hb : coalesced = true ↔ b ∈ fl) (hb0 : b ≠ 0)
    (hm : fl.erase b = f ++ m :: g) :
    (takePlace d b m coalesced).Represents 0 (f ++ b :: g) ∧
      ∀ c, c ∉ fl → c ≠ b → (takePlace d b m coalesced).next c = d.next c := by
  have hbe : b ∉ fl.erase b := List.Nodup.not_mem_erase hd.nodup
  cases coalesced with
  | true =>
    have hbf : b ∈ fl := hb.mp rfl
    have hu : (d.unlink 0 b).Represents 0 (f ++ m :: g) := by
      rw [← hm]
      obtain ⟨f1, f2, rfl⟩ := List.append_of_mem hbf
      have hbf1 : b ∉ f1 := (hd.at).2.2.2.2.1
      rw [List.erase_append_right _ hbf1, List.erase_cons_head]
      exact hd.unlink
    rw [hm] at hbe
    refine ⟨hu.replace hbe hb0, ?_⟩
    intro c hc hcb
    have hcm : c ∉ f ++ m :: g := by
      rw [← hm]
      exact fun h => hc (List.mem_of_mem_erase h)
    calc (takePlace d b m true).next c = (d.unlink 0 b).next c :=
          hu.replace_next (by simp) hbe hcm hcb
      _ = d.next c := hd.unlink_next hbf hc
  | false =>
    have hbf : b ∉ fl := fun h => by simpa using hb.mpr h
    rw [List.erase_of_not_mem hbf] at hm
    subst hm
    have hu : DList.Represents 0 { d with next := Function.update d.next b 0 } (f ++ m :: g) := by
      refine hd.congr rfl ?_ fun c _ => rfl
      intro c hc
      exact Function.update_of_ne (by rintro rfl; exact hbf hc) _ _
    refine ⟨hu.replace hbf hb0, ?_⟩
    intro c hc hcb
    calc (takePlace d b m false).next c = Function.update d.next b 0 c :=
          hu.replace_next (by simp) hbf hc hcb
      _ = d.next c := Function.update_of_ne hcb _ _

theorem sorted_replace {f g : List ℕ} {b m : ℕ} (h : (f ++ m :: g).Pairwise (· < ·)) (hb : b < m)
    (hf : ∀ c ∈ f, c < b) : (f ++ b :: g).Pairwise (· < ·) := by
  simp only [List.pairwise_append, List.pairwise_cons, List.mem_cons] at h ⊢
  grind

/-- A block is coalesced with its right neighbour if that one is free. The block is on
the free list when `coalesced` is set and is being released otherwise. -/
theorem Layout.coalesceNext {s : Kernel} {mp b m : ℕ} {l r fl limbo stale : List ℕ}
    {rl : ℕ → List ℕ} {coalesced : Bool}
    (i : Layout s mp (l ++ b :: m :: r) fl rl limbo stale) (hbl : b ∈ fl ∨ b ∈ limbo)
    (hb : coalesced = true ↔ b ∈ fl) (hm : s.heap.BlockIsFree m) :
    ∃ s' k r' f g, r = k :: r' ∧ fl.erase b = f ++ m :: g ∧
      s.coalesceNext mp b coalesced = (s', true) ∧
      Layout s' mp (l ++ b :: k :: r') (f ++ b :: g) rl (limbo.erase b) (stale.filter (· ≠ b)) ∧
      s'.heap.taskNumber = Function.update s.heap.taskNumber b 0 ∧
      (fl.Pairwise (· < ·) → (f ++ b :: g).Pairwise (· < ·)) ∧
      ((s.pools mp).poolAllocCurrentBlock = 0 ∨ (s.pools mp).poolAllocCurrentBlock ∈ fl →
        (s'.pools mp).poolAllocCurrentBlock = 0 ∨
          (s'.pools mp).poolAllocCurrentBlock ∈ f ++ b :: g) := by
  have hbs : b ∈ l ++ b :: m :: r := by simp
  have hbb := i.phys.bounds hbs
  have hb1 := i.phys.next_eq
  have hmfl : m ∈ fl := (i.mem_free m).mpr ⟨by simp, hm⟩
  have hnmb : m ≠ b := by omega
  obtain ⟨k, r', rfl⟩ : ∃ k r', r = k :: r' := by
    have hme : m ≠ (s.pools mp).poolEndPtr := (i.mem_of_free hmfl).2.2
    have hp : l ++ b :: m :: r = (l ++ [b]) ++ m :: r := by simp
    obtain ⟨t, ht⟩ := (hp ▸ i.phys).last_of_append
    cases r with
    | nil =>
      have := (List.append_inj' (show [] ++ [m] = t ++ [_] from ht) rfl).2
      simp [hme] at this
    | cons k r' => exact ⟨k, r', rfl⟩
  obtain ⟨f, g, hfg⟩ := List.append_of_mem ((List.mem_erase_of_ne hnmb).mpr hmfl)
  obtain ⟨hrep, hnext⟩ := takePlace_spec i.free hb (by omega) hfg
  have hbfree : coalesced = true → s.heap.BlockIsFree b := fun h => (i.mem_of_free (hb.mp h)).2.1
  have heq := coalesceNext_eq s mp coalesced (m := m)
    ((i.phys.nextPhys_eq hbs).trans hb1) hm hbfree
  have hmem : ∀ c, c ∈ f ++ m :: g ↔ c ≠ b ∧ c ∈ fl := by
    intro c
    rw [← hfg, i.free.nodup.mem_erase_iff]
  have hfl : ∀ c, c ∈ f ++ b :: g ↔ c = b ∨ c ∈ fl ∧ c ≠ m := by
    intro c
    have hc := hmem c
    have hdup : (f ++ m :: g).Nodup := hfg ▸ i.free.nodup.erase b
    grind
  refine ⟨_, k, r', f, g, rfl, hfg, heq, ?_, rfl, ?_, ?_⟩
  · refine i.joinNext ?_ hm hrep hfl ?_ rfl rfl ?_ ?_ ?_
    · exact hbl.imp_left fun h => (i.mem_of_free h).2.1
    · intro c hc hcb
      exact hnext c (i.notMem_free hc) hcb
    all_goals simp
  · intro hs
    have hs' : (f ++ m :: g).Pairwise (· < ·) := hfg ▸ hs.sublist List.erase_sublist
    refine sorted_replace hs' (by omega) ?_
    intro c hc
    obtain ⟨hcb, hcfl⟩ := (hmem c).mp (by simp [hc])
    have hcm : c < m := (List.pairwise_append.mp hs').2.2 c hc m (by simp)
    have := i.phys.le_of_lt_next (i.mem_of_free hcfl).1 hcm
    omega
  · simp only [Function.update_self]
    intro hc
    split_ifs with h1
    · right
      simp
    · exact hc.imp_right fun h => (hfl _).mpr (Or.inr ⟨h, h1⟩)

/-- Neither physical neighbour of the block is free. -/
def NoFreeNeighbour (s : Kernel) (b : ℕ) : Prop :=
  (s.heap.prevblock b = 0 ∨ ¬s.heap.BlockIsFree (s.heap.prevblock b)) ∧
    ¬s.heap.BlockIsFree (s.heap.nextPhys b)

instance (s : Kernel) (b : ℕ) : Decidable (NoFreeNeighbour s b) :=
  inferInstanceAs (Decidable (_ ∧ _))

/-- What `_mem_check_coalesce_internal` achieves when it returns `TRUE`. -/
structure Coalesced (s s' : Kernel) (mp : ℕ) (fl : List ℕ) (rl : ℕ → List ℕ)
    (limbo stale : List ℕ) (fl' : List ℕ) : Prop where
  inv : ∃ bs', PoolInv s' mp bs' fl' rl limbo stale
  sorted : fl.Pairwise (· < ·) → fl'.Pairwise (· < ·)
  freeCursor : (s'.pools mp).poolFreeCurrentBlock = (s'.pools mp).poolFreeListPtr
  allocCursor : (s.pools mp).poolAllocCurrentBlock = 0 ∨
      (s.pools mp).poolAllocCurrentBlock ∈ fl →
    (s'.pools mp).poolAllocCurrentBlock = 0 ∨ (s'.pools mp).poolAllocCurrentBlock ∈ fl'
  memType : s'.heap.memType = s.heap.memType

namespace PoolInv

variable {s s' : Kernel} {mp b : ℕ} {bs l r fl limbo stale : List ℕ} {rl : ℕ → List ℕ}

theorem resetFreePointers (i : PoolInv s mp bs fl rl limbo stale) :
    PoolInv (s.resetFreePointers mp) mp bs fl rl limbo stale :=
  i.setPool rfl rfl rfl

/-- A block without free neighbours is not coalesced. -/
theorem coalesce_false (h : NoFreeNeighbour s b) : s.memCheckCoalesceInternal b = (s, false) := by
  have hprev : ¬(s.heap.prevblock b ≠ 0 ∧ s.heap.BlockIsFree (s.heap.prevblock b)) := by
    have := h.1
    tauto
  simp [Kernel.memCheckCoalesceInternal, hprev, Kernel.coalesceNext, h.2]

/-- The right neighbour is free: the block takes its place. -/
theorem coalesce_right {m : ℕ} (coalesced : Bool)
    (i : Layout s mp (l ++ b :: m :: r) fl rl limbo stale) (hbl : b ∈ fl ∨ b ∈ limbo)
    (hb : coalesced = true ↔ b ∈ fl) (hm : s.heap.BlockIsFree m) (hl : Apart s.heap l)
    (hlast : ∀ q ∈ l.getLast?, ¬s.heap.BlockIsFree q) (hr : Apart s.heap (m :: r)) :
    ∃ s' fl', s.coalesceNext mp b coalesced = (s', true) ∧
      Coalesced s (s'.resetFreePointers mp) mp fl rl (limbo.erase b) (stale.filter (· ≠ b)) fl' := by
  obtain ⟨s', k, r', f, g, rfl, -, he, hlay, htask, hsort, hcursor⟩ := i.coalesceNext hbl hb hm
  have hk : ¬s.heap.BlockIsFree k := Apart.next_used (l := []) hr hm
  have hd := i.phys.nodup
  have hother : ∀ c, c ≠ b → s'.heap.taskNumber c = s.heap.taskNumber c := by
    intro c hc
    rw [htask]
    exact Function.update_of_ne hc _ _
  have hsplit : l ++ b :: k :: r' = (l ++ [b]) ++ k :: r' := by simp
  have hlb : ∀ c ∈ l, c ≠ b := by
    rintro c hc rfl
    grind
  have htype : s'.heap.memType = s.heap.memType := by
    simpa [he] using coalesceNext_memType s mp b coalesced
  refine ⟨s', f ++ b :: g, he, ⟨_, PoolInv.resetFreePointers ⟨hlay, ?_⟩⟩, hsort, ?_, ?_, htype⟩
  · rw [hsplit]
    refine Apart.append_cons_of_used ?_ (Apart.concat ?_ ?_) ?_
    · rw [Storeblocks.BlockIsFree, hother k (by grind)]
      exact hk
    · exact hl.congr fun c hc => hother c (hlb c hc)
    · intro q hq
      rw [Storeblocks.BlockIsFree, hother q (hlb q (List.mem_of_getLast? hq))]
      exact hlast q hq
    · have hr' : Apart s.heap ([m, k] ++ r') := hr
      exact hr'.right.congr fun c hc => hother c (by grind)
  · simp [Kernel.resetFreePointers, Kernel.setPool]
  · simpa [Kernel.resetFreePointers, Kernel.setPool] using hcursor

theorem memCheck_prev {q : ℕ} (hpool : s.heap.memPoolPtr b = mp) (hq : s.heap.prevblock b = q)
    (hq0 : q ≠ 0) (hfree : s.heap.BlockIsFree q)
    (he : Kernel.coalesceNext { s with heap := s.heap.joinPrev b q } mp q true = (s', true)) :
    s.memCheckCoalesceInternal b = (s'.resetFreePointers mp, true) := by
  simp [Kernel.memCheckCoalesceInternal, hpool, hq, hq0, hfree, he]

theorem memCheck_next (hpool : s.heap.memPoolPtr b = mp)
    (hq : ¬(s.heap.prevblock b ≠ 0 ∧ s.heap.BlockIsFree (s.heap.prevblock b)))
    (he : s.coalesceNext mp b false = (s', true)) :
    s.memCheckCoalesceInternal b = (s'.resetFreePointers mp, true) := by
  simp [Kernel.memCheckCoalesceInternal, hpool, hq, he]

/-- The left neighbour is free: the block is added to it. -/
theorem coalesce_prev {q m : ℕ} (i : PoolInv s mp (l ++ q :: b :: m :: r) fl rl limbo stale)
    (hb : b ∈ limbo) (hq : s.heap.BlockIsFree q) :
    ∃ s' fl', Kernel.coalesceNext { s with heap := s.heap.joinPrev b q } mp q true = (s', true) ∧
      Coalesced s (s'.resetFreePointers mp) mp fl rl (limbo.erase b) (stale.filter (· ≠ b)) fl' := by
  have hj := i.toLayout.joinPrev hb
  have hqfl : q ∈ fl := (i.mem_free q).mpr ⟨by simp, hq⟩
  have hother : ∀ c, c ≠ b → (s.heap.joinPrev b q).taskNumber c = s.heap.taskNumber c := by
    intro c hc
    exact Function.update_of_ne hc _ _
  have hd := i.phys.nodup
  have hr : Apart s.heap ([q, b] ++ m :: r) := i.apart.right
  have hl' : Apart (s.heap.joinPrev b q) l :=
    i.apart.left.congr fun c hc => hother c (by grind)
  have hr' : Apart (s.heap.joinPrev b q) (m :: r) :=
    hr.right.congr fun c hc => hother c (by grind)
  have hlast : ∀ c ∈ l.getLast?, ¬(s.heap.joinPrev b q).BlockIsFree c := by
    intro c hc
    obtain ⟨l, rfl⟩ := List.getLast?_eq_some_iff.mp hc
    rw [Storeblocks.BlockIsFree, hother c (by grind)]
    have hsplit : l ++ [c] ++ q :: b :: m :: r = l ++ c :: q :: b :: m :: r := by simp
    exact Apart.prev_used (hsplit ▸ i.apart) hq
  have hm : (s.heap.joinPrev b q).BlockIsFree m ↔ s.heap.BlockIsFree m := by
    rw [Storeblocks.BlockIsFree, hother m (by grind)]
    rfl
  by_cases hmf : (s.heap.joinPrev b q).BlockIsFree m
  · obtain ⟨s', fl', he, hc⟩ := coalesce_right true hj (Or.inl hqfl)
      (by simp [hqfl]) hmf hl' hlast hr'
    refine ⟨s', fl', he, ?_⟩
    have hql : q ∉ limbo.erase b := fun h =>
      i.notMem_limbo hq (List.mem_of_mem_erase h)
    have hqs : q ∉ stale := fun h => i.notMem_limbo hq (i.stale_limbo q h)
    have hfilter : (stale.filter (· ≠ b)).filter (· ≠ q) = stale.filter (· ≠ b) := by
      rw [List.filter_eq_self]
      intro c hc
      have hcs := List.mem_of_mem_filter hc
      simp only [decide_eq_true_eq]
      rintro rfl
      exact hqs hcs
    rw [List.erase_of_not_mem hql, hfilter] at hc
    exact ⟨hc.inv, hc.sorted, hc.freeCursor, hc.allocCursor, hc.memType⟩
  · have hnext : (s.heap.joinPrev b q).nextPhys q = m :=
      (hj.phys.nextPhys_eq (by simp)).trans hj.phys.next_eq
    have he : Kernel.coalesceNext { s with heap := s.heap.joinPrev b q } mp q true =
        ({ s with heap := s.heap.joinPrev b q }, true) := by
      simp [Kernel.coalesceNext, hnext, hmf]
    refine ⟨_, fl, he, ⟨_, PoolInv.resetFreePointers ⟨hj, ?_⟩⟩, id, ?_, ?_, rfl⟩
    · have hsplit : l ++ q :: m :: r = (l ++ [q]) ++ m :: r := by simp
      have hsuffix : Apart (s.heap.joinPrev b q) ([m] ++ r) := hr'
      rw [hsplit]
      exact Apart.append_cons_of_used hmf (Apart.concat hl' hlast) hsuffix.right
    · simp [Kernel.resetFreePointers, Kernel.setPool]
    · simp [Kernel.resetFreePointers, Kernel.setPool]

/-- A block with a free neighbour is coalesced. -/
theorem coalesce_true (i : PoolInv s mp bs fl rl limbo stale) (hb : b ∈ limbo)
    (h : ¬NoFreeNeighbour s b) : ∃ s' fl', s.memCheckCoalesceInternal b = (s', true) ∧
      Coalesced s s' mp fl rl (limbo.erase b) (stale.filter (· ≠ b)) fl' := by
  obtain ⟨hbs, hbe, hbu⟩ := i.of_limbo hb
  obtain ⟨l, m, r, rfl⟩ := i.phys.exists_next hbs hbe
  have hnext : s.heap.nextPhys b = m := (i.phys.nextPhys_eq hbs).trans i.phys.next_eq
  have hpool : s.heap.memPoolPtr b = mp := i.pool b (Or.inr hb)
  have hpre := i.phys.prev_eq
  by_cases hprev : s.heap.prevblock b ≠ 0 ∧ s.heap.BlockIsFree (s.heap.prevblock b)
  · rcases List.eq_nil_or_concat l with rfl | ⟨l, q, rfl⟩
    · exact absurd hpre hprev.1
    have hq : s.heap.prevblock b = q := by simpa using hpre
    have hsplit : l.concat q ++ b :: m :: r = l ++ q :: b :: m :: r := by simp
    obtain ⟨s', fl', he, hc⟩ := coalesce_prev (hsplit ▸ i) hb (hq ▸ hprev.2)
    exact ⟨_, fl', memCheck_prev hpool hq (hq ▸ hprev.1) (hq ▸ hprev.2) he, hc⟩
  · have hm : s.heap.BlockIsFree m := by
      by_contra hm
      refine h ⟨?_, hnext ▸ hm⟩
      tauto
    have hr : Apart s.heap ([b] ++ m :: r) := i.apart.right
    have hbf : b ∉ fl := i.notMem_free hbu
    obtain ⟨s', fl', he, hc⟩ := coalesce_right false i.toLayout (Or.inr hb)
      (by simp [hbf]) hm i.apart.left (by
        intro q hq hfree
        obtain ⟨l, rfl⟩ := List.getLast?_eq_some_iff.mp hq
        simp only [List.getLastD_concat] at hpre
        rw [hpre] at hprev
        exact hprev ⟨(i.phys.pos (b := q) (by simp)).ne', hfree⟩) hr.right
    exact ⟨_, fl', memCheck_next hpool hprev he, hc⟩

end PoolInv
end Mqx.Mem
