import Mqx.Mem.Resource

/-!
# Whole calls without interference

Every call of the allocator returns, since its walks follow lists of blocks, and
leaves a pool well formed.
-/

namespace Mqx.Mem

open PointerList

theorem maxSteps_succ : ∃ n, maxSteps = n + 1 :=
  Nat.exists_eq_succ_of_ne_zero (by simp [maxSteps])

namespace PoolInv

variable {s : Kernel} {mp td b next req : ℕ} {bs f g fl limbo stale : List ℕ} {rl : ℕ → List ℕ}

/-! ## Allocation -/

/-- The state behind the window that is opened at `ptr`. -/
def atWindow (s : Kernel) (mp ptr : ℕ) : Kernel :=
  s.setPool mp { s.pools mp with poolAllocCurrentBlock := ptr }

theorem searchPtr_atWindow (s : Kernel) (mp ptr : ℕ) : searchPtr (atWindow s mp ptr) mp ptr = ptr := by
  simp [searchPtr, atWindow, Kernel.setPool]

theorem nextblock_atWindow (s : Kernel) (mp ptr c : ℕ) :
    (atWindow s mp ptr).heap.nextblock c = s.heap.nextblock c := rfl

theorem atWindow_atWindow (s : Kernel) (mp p q : ℕ) :
    atWindow (atWindow s mp p) mp q = atWindow s mp q := by
  simp [atWindow, Kernel.setPool]

theorem inv_atWindow (i : PoolInv s mp bs fl rl limbo stale) (ptr : ℕ) :
    PoolInv (atWindow s mp ptr) mp bs fl rl limbo stale :=
  i.setPool rfl rfl rfl

/-- A search that passes over the blocks that do not fit ends at the first one that does,
or at the end of the free list. -/
theorem searchRun_window (resume : Kernel → ℕ → Stretch AllocResult) (fits : ℕ → Prop)
    (i : PoolInv s mp bs (f ++ g) rl limbo stale)
    (hskip : ∀ b ∈ f ++ g, ¬fits b → ∃ reads, resume (atWindow s mp b) b =
      memAllocWindow (atWindow s mp b) mp (s.heap.nextblock b) reads)
    (fuel : ℕ) (reads : List ℕ) (hfuel : g.length + 1 < fuel) :
    ∃ n, ((∀ b ∈ g, ¬fits b) ∧ searchRun resume fuel (memAllocWindow s mp (g.headD 0) reads) =
        searchRun resume (n + 1) (resume (atWindow s mp 0) 0)) ∨
      ∃ pre b post, g = pre ++ b :: post ∧ (∀ c ∈ pre, ¬fits c) ∧ fits b ∧
        searchRun resume fuel (memAllocWindow s mp (g.headD 0) reads) =
          searchRun resume (n + 1) (resume (atWindow s mp b) b) := by
  induction g generalizing f fuel reads s with
  | nil =>
    obtain ⟨fuel, rfl⟩ : ∃ n, fuel = n + 2 := ⟨fuel - 2, by simp at hfuel; omega⟩
    exact ⟨fuel, Or.inl ⟨by simp, rfl⟩⟩
  | cons b g ih =>
    obtain ⟨fuel, rfl⟩ : ∃ n, fuel = n + 2 := ⟨fuel - 2, by simp at hfuel; omega⟩
    have hstep : searchRun resume (fuel + 2) (memAllocWindow s mp ((b :: g).headD 0) reads) =
      searchRun resume (fuel + 1) (resume (atWindow s mp b) b) := rfl
    by_cases hb : fits b
    · exact ⟨fuel, Or.inr ⟨[], b, g, rfl, by simp, hb, hstep⟩⟩
    · obtain ⟨reads', he⟩ := hskip b (by simp) hb
      rw [i.nextFree_eq] at he
      have hsplit : f ++ b :: g = (f ++ [b]) ++ g := by simp
      obtain ⟨n, h⟩ := ih (f := f ++ [b]) (hsplit ▸ i.inv_atWindow b) (by
        intro c hc hfc
        rw [atWindow_atWindow]
        exact hskip c (hsplit ▸ hc) hfc) (fuel + 1) reads' (by simp at hfuel; omega)
      simp only [atWindow_atWindow] at h
      refine ⟨n, ?_⟩
      rw [hstep, he]
      rcases h with ⟨hall, hrun⟩ | ⟨pre, c, post, rfl, hpre, hc, hrun⟩
      · left
        exact ⟨by simpa [hb] using hall, hrun⟩
      · right
        exact ⟨b :: pre, c, post, rfl, by simpa [hb] using hpre, hc, hrun⟩

/-- The search of `_mem_alloc_internal` takes the first free block that fits. -/
theorem memAllocInternal_cases (i : PoolInv s mp bs fl rl limbo stale) (td size : ℕ) :
    (∃ s', memAllocInternal s size td mp = some ((0, .outOfMemory), s') ∧
      PoolInv s' mp bs fl rl limbo stale ∧ (∀ b ∈ fl, s.heap.blocksize b < adjustSize size) ∧
      (s'.pools mp).poolHighestMemoryUsed = (s.pools mp).poolHighestMemoryUsed) ∨
    ∃ f b g, fl = f ++ b :: g ∧ (∀ c ∈ f, s.heap.blocksize c < adjustSize size) ∧
      adjustSize size ≤ s.heap.blocksize b ∧
      memAllocInternal s size td mp = some ((userAreaPtr b, .ok),
        (atWindow s mp b).allocBlock td mp b (adjustSize size)) := by
  have hlen := i.phys.length_lt i.free.nodup fun b hb => (i.mem_of_free hb).1
  have hhead : (s.pools mp).poolFreeListPtr = fl.headD 0 := i.free.head_eq
  have hmem : ∀ b ∈ fl, searchPtr (atWindow s mp b) mp b = 0 ∨
      searchPtr (atWindow s mp b) mp b ∈ fl := by
    intro b hb
    rw [searchPtr_atWindow]
    exact Or.inr hb
  obtain ⟨n, h⟩ := searchRun_window (f := [])
    (fun s b => memAllocResume s (adjustSize size) td mp b)
    (fun b => adjustSize size ≤ s.heap.blocksize b) i (by
      intro b hb hfit
      rcases (i.inv_atWindow b).memAllocResume_cases (adjustSize size) td b (hmem b hb) with
        ⟨h0, -⟩ | ⟨-, hle, -⟩ | ⟨-, -, he⟩
      · rw [searchPtr_atWindow] at h0
        exact absurd (h0 ▸ hb) i.free.null_notMem
      · rw [searchPtr_atWindow] at hle
        exact absurd hle hfit
      · rw [searchPtr_atWindow] at he
        exact ⟨_, he⟩) maxSteps [] (by omega)
  unfold memAllocInternal memAllocBegin
  rw [hhead]
  rcases h with ⟨hnone, hrun⟩ | ⟨f, b, g, rfl, hskip, hfit, hrun⟩
  · left
    rcases (i.inv_atWindow 0).memAllocResume_cases (adjustSize size) td 0
        (Or.inl (searchPtr_atWindow s mp 0)) with ⟨-, he⟩ | ⟨h0, -, -⟩ | ⟨h0, -, -⟩
    · rw [hrun, he]
      refine ⟨_, rfl, (i.inv_atWindow 0).setPool rfl rfl rfl,
        fun b hb => Nat.lt_of_not_le (hnone b hb), ?_⟩
      simp [allocReturn, Kernel.setPool, atWindow]
    all_goals
      rw [searchPtr_atWindow] at h0
      exact absurd h0 i.free.null_notMem
  · right
    rcases (i.inv_atWindow b).memAllocResume_cases (adjustSize size) td b (hmem b (by simp)) with
      ⟨h0, -⟩ | ⟨-, hle, he⟩ | ⟨-, hlt, -⟩
    · rw [searchPtr_atWindow] at h0
      exact absurd (by simp [← h0]) i.free.null_notMem
    · rw [searchPtr_atWindow] at hle he
      rw [hrun, he]
      exact ⟨f, b, g, rfl, fun c hc => Nat.lt_of_not_le (hskip c hc), hle, rfl⟩
    · rw [searchPtr_atWindow] at hlt
      exact absurd hfit (Nat.not_le_of_lt hlt)

/-- `_mem_alloc_internal` reports that no block fits, or hands a free block to the task. -/
theorem memAllocInternal_spec (i : PoolInv s mp bs fl rl limbo stale) (htd : td ≠ 0) {size : ℕ}
    (hsize : adjustSize size ≠ 0) :
    ∃ r s', memAllocInternal s size td mp = some (r, s') ∧
      ((r = (0, .outOfMemory) ∧ PoolInv s' mp bs fl rl limbo stale) ∨
        ∃ f b g rest bs', fl = f ++ b :: g ∧ r = (userAreaPtr b, .ok) ∧
          (rest = [] ∨ rest = [b + adjustSize size] ∧ adjustSize size < s.heap.blocksize b) ∧
          PoolInv s' mp bs' (f ++ rest ++ g) (Function.update rl td (b :: rl td)) limbo stale) := by
  obtain ⟨hreq, hal⟩ := adjustSize_spec hsize
  rcases i.memAllocInternal_cases td size with ⟨s', hrun, hinv, -⟩ |
    ⟨f, b, g, rfl, -, hfit, hrun⟩
  · exact ⟨_, s', hrun, Or.inl ⟨rfl, hinv⟩⟩
  · obtain ⟨bs', rest, hrest, hinv⟩ := (i.inv_atWindow b).allocBlock htd hreq hal hfit
    exact ⟨_, _, hrun, Or.inr ⟨f, b, g, rest, bs', rfl, rfl, hrest, hinv⟩⟩

/-! ## Release -/

/-- The end of the insertion keeps the order of the list, unless it puts the block in
front of a lower one. -/
theorem sorted_inserted (i : PoolInv s mp bs (f ++ next :: g) rl limbo stale) (hb : b ∈ limbo)
    (hsort : (f ++ next :: g).Pairwise (· < ·)) (hf : ∀ c ∈ f, c < b) (hlast : next < b → g = [])
    (hsingle : f = [] → g = [] → b ≤ next) : (insertedNodes f g next b).Pairwise (· < ·) := by
  have hbf := i.notMem_free (i.of_limbo hb).2.2
  refine sorted_insertedNodes hsort hf (by rintro rfl; simp at hbf) ?_
  intro hlt
  refine ⟨hlast hlt, ?_⟩
  intro hf0
  have := hsingle hf0 (hlast hlt)
  omega

/-- The insertion loop of `_mem_free` from a free block on. The order of the list is kept
unless its only block is lower than the released one. -/
theorem memFreeRun_loop (i : PoolInv s mp bs (f ++ next :: g) rl limbo stale) (hb : b ∈ limbo)
    (hn : NoFreeNeighbour s b) (fuel : ℕ) (hfuel : g.length + 1 < fuel) :
    ∃ s' fl', memFreeRun mp b fuel (memFreeLoop s mp b next) = some (.ok, s') ∧
      (∃ bs', PoolInv s' mp bs' fl' rl (limbo.erase b) (stale.filter (· ≠ b))) ∧
      ((f ++ next :: g).Pairwise (· < ·) → (∀ c ∈ f, c < b) → (f = [] → g = [] → b ≤ next) →
        fl'.Pairwise (· < ·)) := by
  induction g generalizing f next s fuel with
  | nil =>
    obtain ⟨fuel, rfl⟩ : ∃ n, fuel = n + 2 := ⟨fuel - 2, by simp at hfuel; omega⟩
    rcases i.memFreeLoop_cases hb hn with ⟨n, g', -, hg, -⟩ | ⟨reads, hlast, -, he, hins⟩
    · exact absurd hg (by simp)
    · rw [he]
      exact ⟨_, _, rfl, hins.inv, fun hsort hf hsingle => i.sorted_inserted hb hsort hf hlast hsingle⟩
  | cons n g ih =>
    obtain ⟨fuel, rfl⟩ : ∃ n, fuel = n + 2 := ⟨fuel - 2, by simp at hfuel; omega⟩
    rcases i.memFreeLoop_cases hb hn with ⟨n', g', hlt, hg, he⟩ | ⟨reads, hlast, -, he, hins⟩
    · obtain ⟨rfl, rfl⟩ := List.cons.inj hg
      have hsplit : f ++ next :: n :: g = (f ++ [next]) ++ n :: g := by simp
      obtain ⟨s1, hs1⟩ : ∃ s1, s1 = s.setPool mp { s.pools mp with poolFreeCurrentBlock := n } :=
        ⟨_, rfl⟩
      have hinv : PoolInv s1 mp bs (f ++ [next] ++ n :: g) rl limbo stale := by
        rw [hs1, ← hsplit]
        exact i.setPool rfl rfl rfl
      have hn1 : NoFreeNeighbour s1 b := by
        rw [hs1]
        exact hn
      have hptr : insertPtr s1 mp n = n := by
        simp [insertPtr, hs1, Kernel.setPool]
      -- nothing happens in the window, so the walk goes on where it stopped
      have hresume : memFreeResume s1 mp b n = memFreeLoop s1 mp b n := by
        rcases hinv.memFreeResume_cases hb n with ⟨hn2, -⟩ | ⟨-, h⟩
        · exact absurd hn1 hn2
        · rw [h, hptr]
      obtain ⟨s', fl', hrun, hinv', hsort'⟩ := ih hinv hn1 (fuel + 1)
        (by simp at hfuel; omega)
      refine ⟨s', fl', ?_, hinv', ?_⟩
      · rw [he, ← hrun, ← hresume, ← hs1]
        rfl
      · intro hsort hf _
        refine hsort' (hsplit ▸ hsort) ?_ (by simp)
        intro c hc
        rcases List.mem_append.mp hc with hc | hc
        · exact hf c hc
        · rw [List.mem_singleton.mp hc]
          exact hlt
    · rw [he]
      exact ⟨_, _, rfl, hins.inv, fun hsort hf hsingle => i.sorted_inserted hb hsort hf hlast hsingle⟩

theorem noFreeNeighbour_setResourceLink (td : ℕ) (p : Option ℕ) (link : ℕ) :
    NoFreeNeighbour ((s.setResourceLink td p link).resetType b) b ↔ NoFreeNeighbour s b := by
  cases p <;> exact Iff.rfl

theorem memFreeRun_returned {fuel : ℕ} (hfuel : fuel ≠ 0) (code : MqxCode) (reads : List ℕ) :
    memFreeRun mp b fuel ⟨s, .returned code, reads⟩ = some (code, s) := by
  obtain ⟨fuel, rfl⟩ := Nat.exists_eq_succ_of_ne_zero hfuel
  rfl

/-- `_mem_free` of a block that has left the list of its owner. -/
theorem memFreeRun_unowned (i : PoolInv (s.resetType b) mp bs fl rl [b] [b]) :
    ∃ s' fl', memFreeRun mp b maxSteps (memFreeUnowned s mp b) = some (.ok, s') ∧
      (∃ bs', PoolInv s' mp bs' fl' rl [] []) ∧
      (fl.Pairwise (· < ·) → (NoFreeNeighbour (s.resetType b) b → ∀ h, fl = [h] → b ≤ h) →
        fl'.Pairwise (· < ·)) := by
  have hb : b ∈ [b] := by simp
  have hfuel : maxSteps ≠ 0 := by simp [maxSteps]
  have hlen := i.phys.length_lt i.free.nodup fun c hc => (i.mem_of_free hc).1
  rcases i.memFreeUnowned_cases hb with ⟨-, s', fl', he, hc⟩ | ⟨-, rfl, s', he, hins⟩ |
    ⟨hn, next, g, rfl, he⟩
  · rw [he, memFreeRun_returned hfuel]
    exact ⟨s', fl', rfl, by simpa using hc.inv, fun hsort _ => hc.sorted hsort⟩
  · rw [he, memFreeRun_returned hfuel]
    exact ⟨s', [b], rfl, by simpa using hins.inv, by simp⟩
  · rw [he]
    obtain ⟨s', fl', hrun, hinv, hsort⟩ := memFreeRun_loop (f := []) i hb hn maxSteps
      (by simp at hlen; omega)
    refine ⟨s', fl', hrun, by simpa using hinv, ?_⟩
    intro hs hsingle
    refine hsort hs (by simp) ?_
    rintro - rfl
    exact hsingle hn next rfl

/-- `_mem_free` rejects the pointer and changes nothing, or releases the block. The free
list stays in address order unless a block without free neighbours is put on a list whose
only block is lower. -/
theorem memFree_spec (i : PoolInv s mp bs fl rl [] []) (active memPtr : ℕ) :
    (∃ code, code ≠ .ok ∧ memFree s active memPtr = some (code, s)) ∨
    ∃ b td l r s' bs' fl', Accepts s active memPtr ∧ rl td = l ++ b :: r ∧
      memPtr = userAreaPtr b ∧ getMemblockPtr memPtr = b ∧ memFree s active memPtr = some (.ok, s') ∧
      PoolInv s' mp bs' fl' (Function.update rl td (l ++ r)) [] [] ∧
      (fl.Pairwise (· < ·) → (NoFreeNeighbour s b → ∀ h, fl = [h] → b ≤ h) →
        fl'.Pairwise (· < ·)) := by
  unfold memFree
  dsimp only
  have hfuel : maxSteps ≠ 0 := by simp [maxSteps]
  rcases i.memFreeBegin_cases active memPtr with ⟨code, hcode, he⟩ |
    ⟨b, td, l, r, hacc, hlr, hmem, hget, he⟩
  · left
    refine ⟨code, hcode, ?_⟩
    rw [he, Option.bind_some, memFreeRun_returned hfuel]
  · right
    have hpool : s.heap.memPoolPtr b = mp := i.pool b (Or.inl ⟨td, by rw [hlr]; simp⟩)
    have hlay := (i.toLayout.setResourceLink hlr).resetType (b := b) (by simp)
    have hapart : Apart ((s.setResourceLink td l.getLast? (s.heap.nextblock b)).resetType b).heap
        bs := by
      refine i.apart.congr fun c _ => ?_
      cases l.getLast? <;> rfl
    obtain ⟨s', fl', hrun, ⟨bs', hinv⟩, hsort⟩ := memFreeRun_unowned ⟨hlay, hapart⟩
    refine ⟨b, td, l, r, s', bs', fl', hacc, hlr, hmem, hget, ?_, hinv, ?_⟩
    · rw [he, hget, hpool]
      exact hrun
    · rw [noFreeNeighbour_setResourceLink] at hsort
      exact hsort

end PoolInv

/-! ## Partial release -/

/-- The stores of `splitUsed` to block headers. -/
theorem splitUsed_heap (s : Kernel) (td : ℕ) {b n m size rest : ℕ} (hn : add32 b size = n)
    (hm : add32 n rest = m) (hnb : n ≠ b) (hmb : m ≠ b) (hmn : m ≠ n) :
    (s.splitUsed td b size rest).heap =
    { s.heap with
      blocksize := Function.update (Function.update s.heap.blocksize n rest) b size
      prevblock := Function.update (Function.update s.heap.prevblock n b) m n
      taskNumber := Function.update s.heap.taskNumber n (s.heap.taskNumber b)
      memPoolPtr := Function.update s.heap.memPoolPtr n (s.heap.memPoolPtr b)
      nextblock := Function.update s.heap.nextblock n (s.memoryResourceList td)
      checksum := Function.update (Function.update (Function.update s.heap.checksum n
        ((rest + b + s.heap.taskNumber b + s.heap.memType n) % 2 ^ 32)) b
        ((size + s.heap.prevblock b + s.heap.taskNumber b + s.heap.memType b) % 2 ^ 32)) m
        ((s.heap.blocksize m + n + s.heap.taskNumber m + s.heap.memType m) % 2 ^ 32) } := by
  simp [Kernel.splitUsed, hn, hm, Storeblocks.calcChecksum, Storeblocks.headerSum,
    Storeblocks.nextPhys, hnb, hnb.symm, hmb, hmn]

namespace Layout

variable {s : Kernel} {mp b td : ℕ} {bs l r fl limbo stale : List ℕ} {rl : ℕ → List ℕ}

/-- Cutting a block in use in two blocks of the same owner. -/
theorem splitUsed {m n size : ℕ} (rest : ℕ) (i : Layout s mp (l ++ b :: m :: r) fl rl limbo stale)
    (hb : b ∈ rl td) (hsize : 48 ≤ size) (hal : size % 16 = 0) (hrest : 48 ≤ rest)
    (hsum : size + rest = s.heap.blocksize b) (hn : b + size = n) :
    Layout (s.splitUsed td b size rest) mp (l ++ b :: n :: m :: r) fl
      (Function.update rl td (n :: rl td)) limbo stale := by
  obtain ⟨hbs, hend, hused⟩ := i.of_res hb
  have hbb := i.phys.bounds hbs
  have hbm := i.phys.next_eq
  have htask := i.res_task td b hb
  have hnadd : add32 b size = n := by rw [add32_of_lt] <;> omega
  have hmadd : add32 n rest = m := by rw [add32_of_lt] <;> omega
  have hnbs : n ∉ l ++ b :: m :: r :=
    i.phys.tiles.notMem_of_interior hbs (by omega) (by omega)
  have hnb : n ≠ b := by omega
  have hmb : m ≠ b := by omega
  have hmn : m ≠ n := by omega
  have hheap := splitUsed_heap s td hnadd hmadd hnb hmb hmn
  have hpool : (s.splitUsed td b size rest).pools = s.pools := rfl
  have hne : ∀ c ∈ l ++ b :: m :: r, c ≠ n := by
    rintro c hc rfl
    exact hnbs hc
  have hmem : ∀ c, c ∈ l ++ b :: n :: m :: r ↔ c = n ∨ c ∈ l ++ b :: m :: r := by
    intro c
    simp only [List.mem_append, List.mem_cons]
    tauto
  have hend' : (s.pools mp).poolEndPtr ≠ n := hne _ i.phys.end_mem
  constructor
  · rw [hpool, hheap]
    refine i.phys.split ?_ ?_ ?_ ?_ ?_ ?_ ?_ ?_ ?_ ?_ ?_
    · intro c hc
      obtain ⟨hc, hcb, hcm⟩ := i.phys.ne_pair hc
      have hcn := hne c hc
      constructor <;> simp [hcn, hcb, hcm]
    all_goals simp [Storeblocks.ValidChecksum, Storeblocks.headerSum, hnb, hmb, hmn, hnb.symm,
      hmb.symm, hmn.symm]
    all_goals omega
  · refine i.free.congr ?_ ?_ ?_
    · simp [Kernel.freeList, hpool]
    · intro c hc
      simp [Kernel.freeList, hheap, hne c (i.mem_of_free hc).1]
    · intro c _
      simp [Kernel.freeList, hheap]
  · intro c
    rw [hmem, i.mem_free, hheap]
    by_cases hc : c = n
    · have hused' : s.heap.taskNumber b ≠ 0 := hused
      simp [Storeblocks.BlockIsFree, hc, hnbs, hused']
    · simp [Storeblocks.BlockIsFree, hc]
  · rw [hpool, hheap]
    simpa [Storeblocks.BlockIsFree, hend'] using i.end_used
  · intro t
    have hcongr : ResourceList (s.splitUsed td b size rest).heap (s.memoryResourceList t) (rl t) := by
      refine i.res_congr fun c hc => ?_
      rw [hheap]
      exact Function.update_of_ne (hne c (i.of_res hc).1) _ _
    by_cases ht : t = td
    · subst ht
      simp only [Kernel.splitUsed, Function.update_self, hnadd]
      rw [ResourceList.cons (by omega)]
      have hnext : (s.splitUsed t b size rest).heap.nextblock n = s.memoryResourceList t := by
        simp [hheap]
      rw [← hnext] at hcongr
      simpa only [Kernel.splitUsed, hnadd] using hcongr
    · simpa [Kernel.splitUsed, ht] using hcongr
  · intro t
    exact nodup_update_cons (i.res_nodup t) fun h => hnbs (i.of_res h).1
  · intro t c hc
    rw [hheap]
    rcases mem_update_cons.mp hc with ⟨rfl, rfl⟩ | hc
    · simpa using htask
    · simpa [hne c (i.of_res hc).1] using i.res_task t c hc
  · exact i.limbo_nodup
  · intro c hc t hm
    rcases mem_update_cons.mp hm with ⟨rfl, -⟩ | hm
    · exact hnbs (i.of_limbo hc).1
    · exact i.limbo_notMem c hc t hm
  · exact i.stale_limbo
  · intro c
    rw [owned_update_cons, hmem, hheap, hpool]
    by_cases hc : c = n
    · have hused' : s.heap.taskNumber b ≠ 0 := hused
      simp [Storeblocks.BlockIsFree, hc, hused', hend'.symm]
    · simp only [hc, false_or, i.owned c, Storeblocks.BlockIsFree, Function.update_of_ne hc]
  · intro c hc
    rw [hheap]
    rcases owned_update_cons.mp hc with rfl | ho
    · simpa using i.pool b (Or.inl ⟨td, hb⟩)
    · simpa [hne c ((i.owned c).mp ho).1] using i.pool c ho

/-- A block that has been taken off a list is put on the list of another task. -/
theorem memTransferInternal (i : Layout s mp bs fl rl [b] []) (htd : td ≠ 0) :
    Layout (memTransferInternal s (userAreaPtr b) td) mp bs fl (Function.update rl td (b :: rl td))
      [] [] := by
  obtain ⟨hbs, hend, hused⟩ := i.of_limbo (b := b) (by simp)
  have hbb := i.phys.bounds hbs
  have hget : getMemblockPtr (userAreaPtr b) = b := getMemblockPtr_userAreaPtr (by omega)
  have hres : ∀ t c, c ∈ rl t → c ≠ b := by
    rintro t c hc rfl
    exact i.limbo_notMem c (by simp) t hc
  have howned : ∀ c, ((∃ t, c ∈ Function.update rl td (b :: rl td) t) ∨ c ∈ ([] : List ℕ)) ↔
      (∃ t, c ∈ rl t) ∨ c ∈ [b] := by
    intro c
    rw [owned_update_cons]
    simp [or_comm]
  have htask : ∀ c, Function.update s.heap.taskNumber b td c = 0 ↔ s.heap.taskNumber c = 0 := by
    intro c
    by_cases hc : c = b
    · have hused' : s.heap.taskNumber b ≠ 0 := hused
      simp [hc, htd, hused']
    · simp [hc]
  unfold Mem.memTransferInternal
  simp only [hget]
  constructor
  · refine i.phys.retag (b := b) ?_ rfl rfl (by simp) ?_
    · intro c _ hc
      constructor <;> simp [hc, Storeblocks.calcChecksum]
    · simp [Storeblocks.ValidChecksum, Storeblocks.headerSum, Storeblocks.calcChecksum]
  · refine i.free.congr rfl ?_ fun c _ => rfl
    intro c hc
    exact Function.update_of_ne (by rintro rfl; exact i.notMem_free hused hc) _ _
  · intro c
    simpa only [Storeblocks.BlockIsFree, Storeblocks.calcChecksum, htask] using i.mem_free c
  · simpa only [Storeblocks.BlockIsFree, Storeblocks.calcChecksum, htask] using i.end_used
  · intro t
    have hcongr : ResourceList (Storeblocks.calcChecksum { s.heap with
        nextblock := Function.update s.heap.nextblock b (s.memoryResourceList td)
        taskNumber := Function.update s.heap.taskNumber b td } b) (s.memoryResourceList t) (rl t) := by
      refine i.res_congr fun c hc => ?_
      exact Function.update_of_ne (hres t c hc) _ _
    by_cases ht : t = td
    · subst ht
      simp only [Function.update_self]
      rw [ResourceList.cons (by omega)]
      simpa [Storeblocks.calcChecksum] using hcongr
    · simpa [ht] using hcongr
  · intro t
    exact nodup_update_cons (i.res_nodup t) (i.limbo_notMem b (by simp) t)
  · intro t c hc
    rcases mem_update_cons.mp hc with ⟨rfl, rfl⟩ | hc
    · simp [Storeblocks.calcChecksum]
    · simpa [Storeblocks.calcChecksum, hres t c hc] using i.res_task t c hc
  · simp
  · simp
  · simp
  · intro c
    rw [howned]
    simpa only [Storeblocks.BlockIsFree, Storeblocks.calcChecksum, htask] using i.owned c
  · intro c hc
    exact i.pool c ((howned c).mp hc)

end Layout
end Mqx.Mem
