import Mathlib.Logic.Relation
import Mqx.Mem.LwmemFree
import Mqx.Mem.UsableSize

/-!
# Runs of calls on a lightweight pool

Beside the pool stands what its users hold: for every allocation that has succeeded and has not
been released, the pointer, the size and the alignment that were asked for, and the owner. In
every run of allocations and releases the blocks in use are exactly those that are held, so the
areas do not overlap, `_lwmem_test` finds nothing wrong, and a pool of which nothing is held is
the one free block that it was created as.
-/

namespace Mqx.Lwmem

open PointerList
open Mem (add32_of_lt sub32_of_le adjustAlign adjustAlign_spec sub32_alignDown)

/-! ## The pool checker -/

/-- The loop of `_lwmem_test` over the blocks of a pool: the block in error, if there is one. -/
def testBlocks (mp : ℕ) : ℕ → State → ℕ → Option (Option ℕ × State)
  | 0, _, _ => none
  | fuel + 1, s, block =>
    if block < (s.pools mp).poolAllocEndPtr then
      let s := s.setPool mp { s.pools mp with poolTest2Ptr := block }
      if s.heap.pool block ≠ mp then some (some block, s)
      else testBlocks mp fuel s (add32 block (s.heap.blocksize block))
    else some (none, s)

/-- The loop of `_lwmem_test` over the free list. -/
def testFree (mp : ℕ) : ℕ → State → ℕ → Option (Option ℕ × State)
  | 0, _, _ => none
  | fuel + 1, s, block =>
    if block = 0 then some (none, s)
    else
      let s := s.setPool mp { s.pools mp with poolTestPtr := block }
      let p := s.pools mp
      let next := s.heap.u block
      if block < p.poolAllocStartPtr ∨ p.poolAllocEndPtr < block ∨ s.heap.pool block ≠ mp ∨
          (next ≠ 0 ∧ next ≤ add32 block (s.heap.blocksize block)) then some (some block, s)
      else testFree mp fuel s next

/-- `_lwmem_test` over the list of the pools: the result, the pool and the block in error. The
windows for other tasks are left out. -/
def lwmemTest (s : State) : List ℕ → Option ((MqxCode × ℕ × ℕ) × State)
  | [] => some ((.ok, 0, 0), s)
  | mp :: pools =>
    if (s.pools mp).valid ≠ lwmemPoolValid then some ((.lwmemPoolInvalid, mp, 0), s)
    else
      match testBlocks mp maxSteps s (s.pools mp).poolAllocStartPtr with
      | none => none
      | some (some block, s) => some ((.corruptStoragePool, mp, block), s)
      | some (none, s) =>
        match testFree mp maxSteps s (s.pools mp).poolFreeListPtr with
        | none => none
        | some (some block, s) => some ((.corruptStoragePoolFreeList, mp, block), s)
        | some (none, s) => lwmemTest s pools

section Test

variable {s : State} {mp unit a : ℕ} {bs fl r : List ℕ}

theorem Layout.testBlocks_ok (i : Layout s mp unit bs fl)
    (ht : Tiles s.heap.blocksize a r (s.pools mp).poolAllocEndPtr) (hr : ∀ b ∈ r, b ∈ bs)
    (fuel : ℕ) (hfuel : r.length < fuel) :
    ∃ s', testBlocks mp fuel s a = some (none, s') ∧ s'.heap = s.heap ∧
      ∀ m, SameFrame (s.pools m) (s'.pools m) := by
  induction r generalizing a s fuel with
  | nil =>
    obtain ⟨fuel, rfl⟩ : ∃ n, fuel = n + 1 := ⟨fuel - 1, by simp at hfuel; omega⟩
    have ha : a = (s.pools mp).poolAllocEndPtr := ht
    refine ⟨s, ?_, rfl, fun m => ⟨rfl, rfl, rfl, rfl⟩⟩
    rw [testBlocks, if_neg (by omega)]
  | cons b r ih =>
    obtain ⟨fuel, rfl⟩ : ∃ n, fuel = n + 1 := ⟨fuel - 1, by simp at hfuel; omega⟩
    obtain ⟨rfl, ht⟩ := Tiles.cons.mp ht
    have hb := hr a (by simp)
    have hbb := i.bounds hb
    obtain ⟨t, hteq⟩ : ∃ t, s.setPool mp { s.pools mp with poolTest2Ptr := a } = t := ⟨_, rfl⟩
    have hheap : t.heap = s.heap := by rw [← hteq]; rfl
    have hframe : ∀ m, SameFrame (s.pools m) (t.pools m) := by
      rw [← hteq]
      exact s.setPool_frame ⟨rfl, rfl, rfl, rfl⟩
    have hpool : t.heap.pool a = mp := by rw [hheap, i.pool a hb]
    have hadd : add32 a (t.heap.blocksize a) = a + s.heap.blocksize a := by
      rw [hheap, add32_of_lt (by omega)]
    obtain ⟨s', hrun, hheap', hframe'⟩ := ih (s := t) (i.congr_frame hheap (hframe mp))
      (by rwa [hheap, (hframe mp).end_]) (fun c hc => hr c (by simp [hc])) fuel
      (by simp at hfuel; omega)
    refine ⟨s', ?_, hheap'.trans hheap, fun m => (hframe m).trans (hframe' m)⟩
    rw [testBlocks, if_pos (by omega)]
    simp only [hteq, hpool, ne_eq, not_true_eq_false, if_false, hadd]
    exact hrun

theorem Layout.testFree_ok (i : Layout s mp unit bs fl) (hl : Linked s.heap.u a r 0)
    (hr : ∀ b ∈ r, b ∈ bs) (hg : Gaps s.heap r) (fuel : ℕ) (hfuel : r.length < fuel) :
    ∃ s', testFree mp fuel s a = some (none, s') ∧ s'.heap = s.heap ∧
      ∀ m, SameFrame (s.pools m) (s'.pools m) := by
  induction r generalizing a s fuel with
  | nil =>
    obtain ⟨fuel, rfl⟩ : ∃ n, fuel = n + 1 := ⟨fuel - 1, by simp at hfuel; omega⟩
    refine ⟨s, ?_, rfl, fun m => ⟨rfl, rfl, rfl, rfl⟩⟩
    have ha : a = 0 := hl
    rw [testFree, if_pos ha]
  | cons b r ih =>
    obtain ⟨fuel, rfl⟩ : ∃ n, fuel = n + 1 := ⟨fuel - 1, by simp at hfuel; omega⟩
    obtain ⟨rfl, hl⟩ := hl
    have hb := hr a (by simp)
    have hbb := i.bounds hb
    obtain ⟨hgap, hg⟩ := List.pairwise_cons.mp hg
    obtain ⟨t, hteq⟩ : ∃ t, s.setPool mp { s.pools mp with poolTestPtr := a } = t := ⟨_, rfl⟩
    have hheap : t.heap = s.heap := by rw [← hteq]; rfl
    have hframe : ∀ m, SameFrame (s.pools m) (t.pools m) := by
      rw [← hteq]
      exact s.setPool_frame ⟨rfl, rfl, rfl, rfl⟩
    have hadd : add32 a (t.heap.blocksize a) = a + s.heap.blocksize a := by
      rw [hheap, add32_of_lt (by omega)]
    have hnext : s.heap.u a ≠ 0 → a + s.heap.blocksize a < s.heap.u a := by
      intro h0
      cases r with
      | nil => exact absurd hl h0
      | cons c r =>
        rw [hl.1]
        exact hgap c (by simp)
    have hgood : ¬(a < (t.pools mp).poolAllocStartPtr ∨ (t.pools mp).poolAllocEndPtr < a ∨
        t.heap.pool a ≠ mp ∨
        (t.heap.u a ≠ 0 ∧ t.heap.u a ≤ add32 a (t.heap.blocksize a))) := by
      rw [(hframe mp).start, (hframe mp).end_, hadd, hheap, i.pool a hb]
      omega
    obtain ⟨s', hrun, hheap', hframe'⟩ := ih (s := t) (i.congr_frame hheap (hframe mp))
      (by rwa [hheap]) (fun c hc => hr c (by simp [hc])) (by rwa [hheap]) fuel
      (by simp at hfuel; omega)
    refine ⟨s', ?_, hheap'.trans hheap, fun m => (hframe m).trans (hframe' m)⟩
    rw [testFree, if_neg (by omega)]
    simp only [hteq]
    rw [if_neg hgood, hheap]
    exact hrun

/-- `_lwmem_test` finds nothing wrong with well formed pools. -/
theorem lwmemTest_ok {pools : List ℕ} (hw : ∀ m ∈ pools, WellFormed s m unit) :
    ∃ s', lwmemTest s pools = some ((.ok, 0, 0), s') ∧ s'.heap = s.heap := by
  induction pools generalizing s with
  | nil => exact ⟨s, rfl, rfl⟩
  | cons m pools ih =>
    obtain ⟨bs, fl, i⟩ := hw m (by simp)
    have hlen := i.toLayout.length_lt
    have hblocks : bs.length < maxSteps := by
      have h1 := i.tiles.length_le (k := 16) i.size
      have h2 := i.limit
      unfold maxSteps
      omega
    obtain ⟨t, ht, hheap, hframe⟩ := i.toLayout.testBlocks_ok i.tiles (fun b hb => hb) maxSteps
      hblocks
    have it := i.toLayout.congr_frame hheap (hframe m)
    obtain ⟨t', ht', hheap', hframe'⟩ := it.testFree_ok it.free it.free_mem
      (by rw [hheap]; exact i.gaps) maxSteps (by omega)
    have hsame : t'.heap = s.heap := hheap'.trans hheap
    have hwell : ∀ m' ∈ pools, WellFormed t' m' unit := by
      intro m' hm'
      obtain ⟨bs', fl', i'⟩ := hw m' (by simp [hm'])
      exact ⟨bs', fl', i'.toLayout.congr_frame hsame ((hframe m').trans (hframe' m')),
        by rw [hsame]; exact i'.gaps⟩
    obtain ⟨s', hs', hend⟩ := ih hwell
    refine ⟨s', ?_, hend.trans hsame⟩
    simp only [lwmemTest, i.valid, ne_eq, not_true_eq_false, if_false, ht, ht', hs']

end Test
/-! ## The region of a pool -/

/-- The first address of the blocks of a pool, and their end. -/
def State.region (s : State) (mp : ℕ) : ℕ × ℕ :=
  ((s.pools mp).poolAllocStartPtr, (s.pools mp).poolAllocEndPtr)

theorem SameFrame.region {s s' : State} {mp : ℕ} (h : SameFrame (s.pools mp) (s'.pools mp)) :
    s'.region mp = s.region mp := by
  rw [State.region, State.region, h.start, h.end_]

section Region

variable {s s' : State} {mp td b prev req : ℕ}

theorem State.unlink_region (next : ℕ) : (s.unlink mp b prev next).region mp = s.region mp := by
  simp only [State.unlink]
  split_ifs
  · simp [State.region, State.setPool]
  · rfl

theorem State.markUsed_region : (s.markUsed td mp b).region mp = s.region mp := rfl

theorem State.setSize_region (n : ℕ) : (s.setSize b n).region mp = s.region mp := rfl

theorem State.setNext_region (n : ℕ) : (s.setNext b n).region mp = s.region mp := rfl

theorem State.addRest_region (n size link : ℕ) :
    (s.addRest td n size link).region mp = s.region mp := rfl

theorem State.rememberHighwater_region : (s.rememberHighwater mp b).region mp = s.region mp :=
  (s.rememberHighwater_frame mp b mp).region

theorem State.resetPointers_region : (s.resetPointers mp).region mp = s.region mp :=
  (s.resetPointers_frame mp mp).region

theorem State.allocBlock_region : (s.allocBlock td mp b prev req).region mp = s.region mp := by
  unfold State.allocBlock
  dsimp only
  split_ifs
  · rw [State.rememberHighwater_region, State.markUsed_region, State.unlink_region,
      State.setSize_region, State.addRest_region]
  · rw [State.rememberHighwater_region, State.markUsed_region, State.unlink_region]

theorem State.allocBlockAlign_region (align : ℕ) :
    (s.allocBlockAlign td mp b req align).region mp = s.region mp := by
  unfold State.allocBlockAlign
  dsimp only
  split_ifs
  · rw [State.rememberHighwater_region, State.markUsed_region, State.unlink_region,
      State.setSize_region, State.setNext_region, State.addRest_region, State.setNext_region,
      State.setSize_region]
  · rw [State.rememberHighwater_region, State.markUsed_region, State.unlink_region,
      State.setSize_region, State.setNext_region, State.setSize_region]

/-- The searches leave the region alone. -/
theorem alloc_region {r : Request} {mp unit : ℕ} {bs fl : List ℕ} {a : AllocResult}
    (hr : r.ReadsHeap) (htake : ∀ s b prev, (r.take s b prev).region mp = s.region mp)
    (i : Layout s mp unit bs fl) (h : alloc r s mp = some (a, s')) :
    s'.region mp = s.region mp := by
  obtain ⟨a', t, hrun, hout⟩ := i.alloc_cases hr
  obtain ⟨-, rfl⟩ := Prod.mk.inj (Option.some.inj (h.symm.trans hrun))
  cases hout with
  | none _ _ hstate => rw [hstate, State.resetPointers_region]
  | first _ _ b _ _ _ _ _ _ hstate =>
    rw [hstate, State.resetPointers_region, htake]
    exact (s.atWindow_frame mp b mp).region

theorem freeLoop_region (f : ℕ) : (freeLoop s mp b f).1.region mp = s.region mp := by
  unfold freeLoop
  dsimp only
  split_ifs
  · rw [State.resetPointers_region]
    simp [State.region, State.insertFirst, State.setPool, State.joinNext_pools]
  · rw [State.resetPointers_region]
    simp [State.region, State.insertAfter_pools]
  · simp [State.region, State.setPool]

theorem freeRun_region {fuel : ℕ} {t : State × Progress MqxCode} {code : MqxCode}
    (h : freeRun mp b fuel t = some (code, s')) : s'.region mp = t.1.region mp := by
  induction fuel generalizing t with
  | zero => simp [freeRun] at h
  | succ fuel ih =>
    cases hp : t.2 with
    | returned r =>
      simp only [freeRun, hp, Option.some.injEq, Prod.mk.injEq] at h
      rw [h.2]
    | window f prev =>
      simp only [freeRun, hp] at h
      rw [ih h, freeResume, freeLoop_region]

/-- The release of a block of the pool leaves its region alone. -/
theorem lwmemFree_region {active memPtr : ℕ} {code : MqxCode}
    (hpool : s.heap.pool (getLwmemblockPtr memPtr) = mp)
    (h : lwmemFree s active memPtr = some (code, s')) : s'.region mp = s.region mp := by
  unfold lwmemFree at h
  dsimp only at h
  rw [hpool] at h
  split_ifs at h
  · rw [(Prod.mk.inj (Option.some.inj h)).2]
  · rw [(Prod.mk.inj (Option.some.inj h)).2]
  · rw [(Prod.mk.inj (Option.some.inj h)).2]
  · rw [freeRun_region h, freeLoop_region]

end Region

/-! ## Aligned pointers -/

theorem alignShift_bounds {a b : ℕ} (h16 : 16 ∣ a) (hd : a ∣ 2 ^ 32) (hlt : a < 2 ^ 32)
    (hroom : a + 48 < 2 ^ 32) (hb : b + 16 < 2 ^ 32) :
    alignShift a b ≤ 48 + a ∧ a ∣ b + 12 + alignShift a b := by
  have h0 : 0 < a := Nat.pos_of_dvd_of_pos hd (by decide)
  have hu : userPtr b = b + 12 := add32_of_lt (by simp only [sizeofLwmemBlock]; omega)
  have hadd0 : add32 (b + 12) a = add32 (add32 (b + 12) 0) a := by
    rw [add32_of_lt (show b + 12 + 0 < 2 ^ 32 by omega), Nat.add_zero]
  have hdvd : ∀ k, a ∣ b + 12 + (k + a - (b + 12 + k) % a) := by
    intro k
    have hlow := Nat.mod_lt (b + 12 + k) h0
    have hsum : b + 12 + (k + a - (b + 12 + k) % a) = (b + 12 + k - (b + 12 + k) % a) + a := by
      have := Nat.mod_le (b + 12 + k) a
      omega
    rw [hsum]
    exact Nat.dvd_add (Nat.dvd_sub_mod _) (Nat.dvd_refl a)
  unfold alignShift
  simp only [hu, minSize_eq]
  rw [hadd0, sub32_alignDown (by omega) hd h0 (by omega), sub32_alignDown (by omega) hd h0 (by omega)]
  split_ifs
  · exact ⟨by omega, hdvd _⟩
  · exact ⟨by omega, hdvd _⟩

/-! ## Sessions -/

/-- What a task holds: the pointer, the size and the alignment of the request, and the number of
the task. -/
structure Grant where
  ptr : ℕ
  size : ℕ
  align : ℕ
  owner : ℕ
  deriving DecidableEq

/-- The memory and what has been handed out of a pool. -/
structure Session where
  state : State
  held : List Grant

/-- A request to the pool, or the release of something held by its owner. -/
inductive SessionCall
  | alloc (size td : ℕ)
  | allocAlign (size reqAlign td : ℕ)
  | free (g : Grant)

namespace Session

variable (σ : Session)

/-- The end of an allocation; a pointer that is not null is held from now on. -/
def handOut (grant : ℕ → Grant) (r : AllocResult × State) : Session :=
  ⟨r.2, if r.1.1 = 0 then σ.held else grant r.1.1 :: σ.held⟩

def exec (mp : ℕ) : SessionCall → Option Session
  | .alloc size td =>
    (lwmemAllocInternal σ.state size td mp).map (σ.handOut fun p => ⟨p, size, 4, td⟩)
  | .allocAlign size reqAlign td =>
    (lwmemAllocAlignInternal σ.state size reqAlign td mp).map
      (σ.handOut fun p => ⟨p, size, adjustAlign reqAlign, td⟩)
  | .free g =>
    (lwmemFree σ.state g.owner g.ptr).map fun r =>
      ⟨r.2, if r.1 = .ok then σ.held.erase g else σ.held⟩

/-- No sum of a request runs over the end of the address space, task numbers have 16 bits, and
only what is held is released. -/
def Valid : SessionCall → Prop
  | .alloc size td => size + 27 < 2 ^ 32 ∧ td < 2 ^ 16
  | .allocAlign size reqAlign td =>
    max size lwmemMinMemoryStorageSize + 75 + adjustAlign reqAlign < 2 ^ 32 ∧ td < 2 ^ 16
  | .free g => g ∈ σ.held

def Step (mp : ℕ) (σ σ' : Session) : Prop := ∃ c, σ.Valid c ∧ σ.exec mp c = some σ'

/-- The bytes behind a pointer that its holder may use. -/
def usable (g : Grant) : ℕ := (lwmemGetSize σ.state g.ptr).1

/-- The block in use that the holder got. -/
structure Owns (s : State) (bs fl : List ℕ) (g : Grant) (b : ℕ) : Prop where
  mem : b ∈ bs
  notMem : b ∉ fl
  ptr : g.ptr = userPtr b
  size : g.size + 12 ≤ s.heap.blocksize b
  owner : s.heap.taskNumber b = g.owner

/-- The blocks in use are those that are held. -/
structure Inv (mp lo hi : ℕ) (σ : Session) (bs fl : List ℕ) : Prop
    extends PoolInv σ.state mp 4 bs fl where
  region : σ.state.region mp = (lo, hi)
  nonempty : bs ≠ []
  owns : ∀ g ∈ σ.held, ∃ b, Owns σ.state bs fl g b
  held : ∀ b ∈ bs, b ∉ fl → ∃ g ∈ σ.held, g.ptr = userPtr b
  distinct : (σ.held.map Grant.ptr).Nodup
  aligned_ptr : ∀ g ∈ σ.held, g.align ∣ g.ptr

variable {σ} {mp lo hi td q k e align size : ℕ} {bs fl bs' fl' : List ℕ} {s' : State}

theorem userPtr_inj {b c : ℕ} (hb : b + 16 < 2 ^ 32) (hc : c + 16 < 2 ^ 32)
    (h : userPtr b = userPtr c) : b = c := by
  rw [← getLwmemblockPtr_userPtr hb, h, getLwmemblockPtr_userPtr hc]

theorem lt_of_mem {s : State} {unit b : ℕ} (i : Layout s mp unit bs fl) (hb : b ∈ bs) :
    b + 16 < 2 ^ 32 := by
  have := i.bounds hb
  omega

namespace Inv

/-- An allocation that returns no block. -/
theorem refused (i : Inv mp lo hi σ bs fl) (grant : ℕ → Grant) (code : MqxCode)
    (hheap : s'.heap = σ.state.heap) (hframe : SameFrame (σ.state.pools mp) (s'.pools mp)) :
    Inv mp lo hi (σ.handOut grant ((0, code), s')) bs fl := by
  refine ⟨⟨i.toLayout.congr_frame hheap hframe, ?_⟩, hframe.region.trans i.region, i.nonempty, ?_,
    i.held, i.distinct, i.aligned_ptr⟩
  · show Gaps s'.heap fl
    rw [hheap]
    exact i.gaps
  · intro g hg
    obtain ⟨b, hb⟩ := i.owns g hg
    refine ⟨b, hb.mem, hb.notMem, hb.ptr, ?_, ?_⟩
    · show _ ≤ s'.heap.blocksize b
      rw [hheap]
      exact hb.size
    · show s'.heap.taskNumber b = _
      rw [hheap]
      exact hb.owner

/-- An allocation that takes the block `q`. -/
theorem handOut (i : Inv mp lo hi σ bs fl) {grant : ℕ → Grant}
    (h : Allocated σ.state s' mp 4 td q k e bs fl bs' fl') (htd : td < 2 ^ 16)
    (hregion : s'.region mp = σ.state.region mp)
    (hgrant : ∀ p, grant p = ⟨p, size, align, td⟩) (hsize : size + 12 ≤ k)
    (halign : align ∣ userPtr q) :
    Inv mp lo hi (σ.handOut grant ((userPtr q, .ok), s')) bs' fl' := by
  have hlim := lt_of_mem h.layout h.mem
  have hheld : (σ.handOut grant ((userPtr q, .ok), s')).held =
      ⟨userPtr q, size, align, td⟩ :: σ.held := by
    simp only [Session.handOut, if_neg (userPtr_ne_zero hlim), hgrant]
  have hkeep : ∀ g b, Owns σ.state bs fl g b → Owns s' bs' fl' g b ∧ b ≠ q := by
    intro g b hb
    obtain ⟨h1, h2, h3, h4, h5⟩ := h.used b hb.mem hb.notMem
    refine ⟨⟨h1, h2, hb.ptr, ?_, ?_⟩, h3⟩
    · rw [h4]
      exact hb.size
    · rw [Blocks.taskNumber, h5]
      exact hb.owner
  refine ⟨⟨h.layout, h.gaps⟩, hregion.trans i.region, List.ne_nil_of_mem h.mem, ?_, ?_, ?_, ?_⟩
  · intro g hg
    rw [hheld] at hg
    rcases List.mem_cons.mp hg with rfl | hg
    · refine ⟨q, h.mem, h.notMem, rfl, ?_, ?_⟩
      · rw [show (σ.handOut grant ((userPtr q, .ok), s')).state = s' from rfl, h.size]
        exact hsize
      · rw [Blocks.taskNumber, show (σ.handOut grant ((userPtr q, .ok), s')).state = s' from rfl,
          h.owner]
        exact Nat.mod_eq_of_lt htd
    · obtain ⟨b, hb⟩ := i.owns g hg
      exact ⟨b, (hkeep g b hb).1⟩
  · intro b hb hfree
    rw [hheld]
    rcases h.blocks b hb with hm | rfl | ⟨hm, hfl⟩
    · exact absurd hm hfree
    · exact ⟨_, List.mem_cons_self, rfl⟩
    · obtain ⟨g, hg, hptr⟩ := i.held b hm hfl
      exact ⟨g, List.mem_cons_of_mem _ hg, hptr⟩
  · rw [hheld, List.map_cons, List.nodup_cons]
    refine ⟨fun hm => ?_, i.distinct⟩
    obtain ⟨g, hg, hptr⟩ := List.mem_map.mp hm
    obtain ⟨b, hb⟩ := i.owns g hg
    obtain ⟨hb', hne⟩ := hkeep g b hb
    refine hne (userPtr_inj (lt_of_mem h.layout hb'.mem) hlim ?_)
    rw [← hb.ptr, hptr]
  · intro g hg
    rw [hheld] at hg
    rcases List.mem_cons.mp hg with rfl | hg
    · exact halign
    · exact i.aligned_ptr g hg

/-- A release of something that is held succeeds. -/
theorem release (i : Inv mp lo hi σ bs fl) (hmp : mp ≠ 0) {g : Grant} (hg : g ∈ σ.held) :
    ∃ s' bs' fl', lwmemFree σ.state g.owner g.ptr = some (.ok, s') ∧
      Inv mp lo hi ⟨s', σ.held.erase g⟩ bs' fl' := by
  obtain ⟨b, hb⟩ := i.owns g hg
  have hlim := lt_of_mem i.toLayout hb.mem
  rcases i.toPoolInv.lwmemFree_spec hb.mem hb.notMem g.owner with
    ⟨-, hne, -⟩ | ⟨s', bs', fl', hrun, hrel⟩
  · exact absurd hb.owner hne
  rw [← hb.ptr] at hrun
  have hregion : s'.region mp = σ.state.region mp := by
    refine lwmemFree_region ?_ hrun
    rw [hb.ptr, getLwmemblockPtr_userPtr hlim, i.pool b hb.mem]
  have hused : ∀ c ∈ bs', c ∉ fl' → c ∈ bs ∧ c ∉ fl ∧ c ≠ b := by
    intro c hc hfree
    have hpool := hrel.layout.pool c hc
    have hnot : ¬(c ∈ fl ∨ c = b) := by
      intro hor
      rcases hrel.released c hor with hm | hm
      · exact hfree hm
      · exact hmp (hpool.symm.trans hm)
    exact ⟨hrel.blocks c hc, not_or.mp hnot⟩
  have hnodup : σ.held.Nodup := i.distinct.of_map _
  have hother : ∀ g' ∈ σ.held.erase g, g' ∈ σ.held ∧ g'.ptr ≠ g.ptr := by
    intro g' hg'
    obtain ⟨hne, hm⟩ := (List.Nodup.mem_erase_iff hnodup).mp hg'
    exact ⟨hm, fun hptr => hne (List.inj_on_of_nodup_map i.distinct hm hg hptr)⟩
  refine ⟨s', bs', fl', hrun, ⟨hrel.layout, hrel.gaps⟩, hregion.trans i.region, ?_, ?_, ?_, ?_, ?_⟩
  · rintro rfl
    have htiles : (s'.pools mp).poolAllocStartPtr = (s'.pools mp).poolAllocEndPtr :=
      hrel.layout.tiles
    obtain ⟨h1, h2⟩ := Prod.mk.inj hregion
    have := i.bounds hb.mem
    omega
  · intro g' hg'
    obtain ⟨hm, hne⟩ := hother g' hg'
    obtain ⟨c, hc⟩ := i.owns g' hm
    have hcb : c ≠ b := by
      rintro rfl
      exact hne (hc.ptr.trans hb.ptr.symm)
    obtain ⟨h1, h2, h3, h4⟩ := hrel.used c hc.mem hc.notMem hcb
    refine ⟨c, h1, h2, hc.ptr, ?_, ?_⟩
    · rw [h3]
      exact hc.size
    · rw [Blocks.taskNumber, h4]
      exact hc.owner
  · intro c hc hfree
    obtain ⟨h1, h2, h3⟩ := hused c hc hfree
    obtain ⟨g', hg', hptr⟩ := i.held c h1 h2
    refine ⟨g', (List.Nodup.mem_erase_iff hnodup).mpr ⟨?_, hg'⟩, hptr⟩
    rintro rfl
    exact h3 (userPtr_inj (lt_of_mem i.toLayout h1) hlim (hptr.symm.trans hb.ptr))
  · exact List.Nodup.sublist (List.Sublist.map _ List.erase_sublist) i.distinct
  · intro g' hg'
    exact i.aligned_ptr g' (hother g' hg').1

end Inv

/-! ## Runs -/

theorem adjustSize_le {v : ℕ} (hv : 16 ≤ v) (hlt : v + 27 < 2 ^ 32) : adjustSize v ≤ v + 27 := by
  have hdef : ∀ x, memoryAlignValLarger x = (x + 15) % 4294967296 - (x + 15) % 4294967296 % 16 :=
    fun _ => rfl
  rw [adjustSize_eq, Nat.mod_eq_of_lt (show v + 12 < 4294967296 by omega), if_neg (by omega), hdef,
    Nat.mod_eq_of_lt (by omega)]
  omega

/-- The pointer of an aligned allocation. -/
theorem aligned_of_alloc {s : State} {reqAlign p : ℕ} (i : Layout s mp 4 bs fl)
    (halign : adjustAlign reqAlign + 48 < 2 ^ 32) (hlt : reqAlign < 2 ^ 32)
    (hwrap : ∀ c ∈ fl, adjustSize (max size lwmemMinMemoryStorageSize) +
      alignShift (adjustAlign reqAlign) c < 2 ^ 32)
    (hmin : 16 ≤ adjustSize (max size lwmemMinMemoryStorageSize))
    (h : lwmemAllocAlignInternal s size reqAlign td mp = some ((p, .ok), s')) :
    adjustAlign reqAlign ∣ p := by
  unfold lwmemAllocAlignInternal at h
  dsimp only at h
  by_cases hpow : reqAlign ≠ 0 ∧ reqAlign &&& (reqAlign - 1) ≠ 0
  · rw [if_pos hpow] at h
    simp at h
  rw [if_neg hpow] at h
  obtain ⟨h16, hd, hal⟩ := adjustAlign_spec hlt hpow
  generalize adjustSize (max size lwmemMinMemoryStorageSize) = req at *
  generalize adjustAlign reqAlign = a at *
  obtain ⟨r, t, hrun, hout⟩ := i.alloc_cases (allocAlignRequest_readsHeap req a td mp)
  obtain ⟨hr, -⟩ := Prod.mk.inj (Option.some.inj (h.symm.trans hrun))
  cases hout with
  | none _ hres _ => simp [hres] at hr
  | first pre post b prev hg _ hfits _ hres _ =>
    have hmem : b ∈ fl := by simp [hg]
    have hb := i.bounds (i.free_mem b hmem)
    have hfit : req + alignShift a b ≤ s.heap.blocksize b := by
      have hle : add32 req (alignShift a b) ≤ s.heap.blocksize b := hfits
      rwa [add32_of_lt (hwrap b hmem)] at hle
    have hp : p = userPtr (add32 b (alignShift a b)) := by
      rw [hres] at hr
      exact (Prod.mk.inj hr).1
    have hsum : userPtr (add32 b (alignShift a b)) = b + alignShift a b + 12 := by
      rw [add32_of_lt (by omega), userPtr, add32_of_lt (by simp only [sizeofLwmemBlock]; omega)]
      rfl
    have hdvd := (alignShift_bounds h16 hd hal (by omega) (b := b) (by omega)).2
    rw [hp, hsum, show b + alignShift a b + 12 = b + 12 + alignShift a b by omega]
    exact hdvd

/-- Every valid call returns and keeps the invariant. -/
theorem Inv.step (i : Inv mp lo hi σ bs fl) (hmp : mp ≠ 0) {c : SessionCall} (hc : σ.Valid c) :
    ∃ σ' bs' fl', σ.exec mp c = some σ' ∧ Inv mp lo hi σ' bs' fl' := by
  have hreset := σ.state.resetPointers_frame mp mp
  have hheap := σ.state.resetPointers_heap mp
  cases c with
  | alloc size td =>
    obtain ⟨hsize, htd⟩ := hc
    have hadd := add_le_adjustSize hsize
    have hpos : adjustSize size ≠ 0 := by omega
    rcases i.toPoolInv.lwmemAllocInternal_spec td (by decide) hpos with
      ⟨hrun, -⟩ | ⟨s', b, k, bs', fl', hrun, hk, -, h⟩
    · exact ⟨_, bs, fl, by rw [exec, hrun]; rfl, i.refused _ _ hheap hreset⟩
    · have hregion : s'.region mp = σ.state.region mp :=
        alloc_region (allocRequest_readsHeap _ td mp) (fun s b prev => State.allocBlock_region)
          i.toLayout hrun
      have hb := h.layout.aligned b h.mem
      have hlim := lt_of_mem h.layout h.mem
      refine ⟨_, bs', fl', by rw [exec, hrun]; rfl, i.handOut h htd hregion (fun _ => rfl)
        (by omega) ?_⟩
      rw [userPtr, add32_of_lt (by simp only [sizeofLwmemBlock]; omega)]
      exact Nat.dvd_add hb.1 (by decide)
  | allocAlign size reqAlign td =>
    obtain ⟨hsize, htd⟩ := hc
    have hle : 16 ≤ max size lwmemMinMemoryStorageSize := le_max_right _ _
    have hlt : max size lwmemMinMemoryStorageSize + 27 < 2 ^ 32 := by omega
    have hadd := add_le_adjustSize hlt
    have hub := adjustSize_le hle (by omega)
    have hal : reqAlign ≤ adjustAlign reqAlign := by
      unfold adjustAlign
      split_ifs <;> omega
    have hwrap : ¬(reqAlign ≠ 0 ∧ reqAlign &&& (reqAlign - 1) ≠ 0) → ∀ c ∈ fl,
        adjustSize (max size lwmemMinMemoryStorageSize) + alignShift (adjustAlign reqAlign) c <
          2 ^ 32 := by
      intro hpow c hcf
      obtain ⟨h16, hd, hlt⟩ := adjustAlign_spec (by omega) hpow
      have hshift := (alignShift_bounds h16 hd hlt (by omega)
        (lt_of_mem i.toLayout (i.free_mem c hcf))).1
      omega
    by_cases hpow : reqAlign ≠ 0 ∧ reqAlign &&& (reqAlign - 1) ≠ 0
    · have hrun : lwmemAllocAlignInternal σ.state size reqAlign td mp =
          some ((0, .invalidParameter), σ.state) := by
        simp only [lwmemAllocAlignInternal, if_pos hpow]
      exact ⟨_, bs, fl, by rw [exec, hrun]; rfl, i.refused _ _ rfl ⟨rfl, rfl, rfl, rfl⟩⟩
    rcases i.toPoolInv.lwmemAllocAlignInternal_spec td (by omega) (by omega) (hwrap hpow) with
      hrun | hrun | ⟨s', q, k, bs', fl', hrun, hk, h⟩
    · exact ⟨_, bs, fl, by rw [exec, hrun]; rfl, i.refused _ _ rfl ⟨rfl, rfl, rfl, rfl⟩⟩
    · exact ⟨_, bs, fl, by rw [exec, hrun]; rfl, i.refused _ _ hheap hreset⟩
    · have hregion : s'.region mp = σ.state.region mp := by
        have halloc := hrun
        simp only [lwmemAllocAlignInternal, if_neg hpow] at halloc
        exact alloc_region (allocAlignRequest_readsHeap _ _ td mp)
          (fun s b prev => State.allocBlockAlign_region _) i.toLayout halloc
      refine ⟨_, bs', fl', by rw [exec, hrun]; rfl, i.handOut h htd hregion (fun _ => rfl)
        (by omega) ?_⟩
      exact aligned_of_alloc i.toLayout (by omega) (by omega) (hwrap hpow) (by omega) hrun
  | free g =>
    obtain ⟨s', bs', fl', hrun, i'⟩ := i.release hmp hc
    exact ⟨_, bs', fl', by rw [exec, hrun]; rfl, i'⟩

theorem Inv.run (i : Inv mp lo hi σ bs fl) (hmp : mp ≠ 0) {σ' : Session}
    (hrun : Relation.ReflTransGen (Step mp) σ σ') : ∃ bs' fl', Inv mp lo hi σ' bs' fl' := by
  induction hrun with
  | refl => exact ⟨bs, fl, i⟩
  | tail _ hstep ih =>
    obtain ⟨bs₁, fl₁, i₁⟩ := ih
    obtain ⟨c, hc, hexec⟩ := hstep
    obtain ⟨σ₂, bs₂, fl₂, hexec', i₂⟩ := i₁.step hmp hc
    obtain rfl := Option.some.inj (hexec.symm.trans hexec')
    exact ⟨bs₂, fl₂, i₂⟩

theorem Inv.lwmemCreatePool (s : State) {start n : ℕ} (hstart : start ≠ 0)
    (hlo : start + 15 < 2 ^ 32) (hhi : start + n < 2 ^ 32)
    (hroom : memoryAlignValLarger start + 16 ≤ alignAddrToLowerMem (start + n)) :
    Inv mp (memoryAlignValLarger start) (alignAddrToLowerMem (start + n))
      ⟨lwmemCreatePool s mp start n, []⟩ [memoryAlignValLarger start]
      [memoryAlignValLarger start] := by
  refine ⟨(PoolInv.lwmemCreatePool s mp hstart hlo hhi hroom).weaken (by decide), ?_, by simp,
    by simp, by simp, by simp, by simp⟩
  simp [State.region, Lwmem.lwmemCreatePool, add32_of_lt hhi]

/-- What the users of a pool rely on. -/
structure Kept (mp lo hi : ℕ) (σ : Session) : Prop where
  wellFormed : WellFormed σ.state mp 4
  test : ∃ s', lwmemTest σ.state [mp] = some ((.ok, 0, 0), s')
  returns : ∀ c, σ.Valid c → (σ.exec mp c).isSome
  released : ∀ g ∈ σ.held, ∃ s', lwmemFree σ.state g.owner g.ptr = some (.ok, s')
  usable : ∀ g ∈ σ.held, g.size ≤ σ.usable g ∧ g.align ∣ g.ptr ∧ lo ≤ g.ptr ∧
    g.ptr + σ.usable g ≤ hi
  apart : σ.held.Pairwise fun g g' =>
    g.ptr + σ.usable g ≤ g'.ptr ∨ g'.ptr + σ.usable g' ≤ g.ptr
  whole : σ.held = [] → (σ.state.pools mp).poolFreeListPtr = lo ∧
    σ.state.heap.blocksize lo = hi - lo ∧ σ.state.heap.u lo = 0

/-- A list with gaps whose elements are all the blocks of a pool is one block. -/
theorem Inv.whole (i : Inv mp lo hi σ bs fl) (hnone : σ.held = []) :
    (σ.state.pools mp).poolFreeListPtr = lo ∧ σ.state.heap.blocksize lo = hi - lo ∧
      σ.state.heap.u lo = 0 := by
  obtain ⟨h1, h2⟩ := Prod.mk.inj i.region
  have hfree : ∀ b ∈ bs, b ∈ fl := by
    intro b hb
    by_contra hfl
    obtain ⟨g, hg, -⟩ := i.held b hb hfl
    simp [hnone] at hg
  have htiles := i.tiles
  rw [h1, h2] at htiles
  obtain ⟨b, r, rfl⟩ := List.exists_cons_of_ne_nil i.nonempty
  obtain ⟨rfl, htail⟩ := Tiles.cons.mp htiles
  have hpos := i.toLayout.pos_size (b := lo) (by simp)
  have hr : r = [] := by
    cases r with
    | nil => rfl
    | cons c r =>
      -- two free neighbours would touch
      obtain ⟨rfl, -⟩ := Tiles.cons.mp htail
      obtain ⟨f, g, rfl⟩ := List.append_of_mem (hfree lo (by simp))
      have hc := hfree (lo + σ.state.heap.blocksize lo) (by simp)
      obtain ⟨-, hgap, hfg⟩ := List.pairwise_append.mp i.gaps
      rcases List.mem_append.mp hc with hc | hc
      · have := hfg _ hc lo (by simp)
        omega
      rcases List.mem_cons.mp hc with hc | hc
      · omega
      · have := (List.pairwise_cons.mp hgap).1 _ hc
        omega
  subst hr
  have hend : lo + σ.state.heap.blocksize lo = hi := htail
  have hfl : fl = [lo] := by
    have hlen := (i.toLayout.nodup_free.subperm i.free_mem).length_le
    have hmem := hfree lo (by simp)
    cases fl with
    | nil => simp at hmem
    | cons b g =>
      have hg : g = [] := by simpa using hlen
      subst hg
      rw [List.mem_singleton.mp hmem]
  have hlist := i.free
  rw [hfl] at hlist
  exact ⟨hlist.1, by omega, hlist.2⟩

theorem Inv.kept (i : Inv mp lo hi σ bs fl) (hmp : mp ≠ 0) : Kept mp lo hi σ := by
  obtain ⟨h1, h2⟩ := Prod.mk.inj i.region
  have hwell : WellFormed σ.state mp 4 := ⟨bs, fl, i.toPoolInv⟩
  have harea : ∀ g ∈ σ.held, ∀ b, Owns σ.state bs fl g b →
      g.ptr = b + 12 ∧ g.ptr + σ.usable g = b + σ.state.heap.blocksize b ∧
        16 ≤ σ.state.heap.blocksize b ∧ lo ≤ b ∧ b + σ.state.heap.blocksize b ≤ hi := by
    intro g _ b hb
    have hbb := i.bounds hb.mem
    have hptr : g.ptr = b + 12 := by
      rw [hb.ptr, userPtr, add32_of_lt (by simp only [sizeofLwmemBlock]; omega)]
      rfl
    have huse : σ.usable g = σ.state.heap.blocksize b - 12 := by
      rw [Session.usable, hb.ptr]
      exact lwmemGetSize_eq σ.state (by omega) (by omega)
    rw [huse, hptr, ← h1, ← h2]
    omega
  refine ⟨hwell, ?_, ?_, ?_, ?_, ?_, i.whole⟩
  · have hpools : ∀ m ∈ [mp], WellFormed σ.state m 4 := by simpa using hwell
    obtain ⟨s', hs', -⟩ := lwmemTest_ok hpools
    exact ⟨s', hs'⟩
  · intro c hc
    obtain ⟨σ', -, -, hexec, -⟩ := i.step hmp hc
    rw [hexec]
    rfl
  · intro g hg
    obtain ⟨s', -, -, hrun, -⟩ := i.release hmp hg
    exact ⟨s', hrun⟩
  · intro g hg
    obtain ⟨b, hb⟩ := i.owns g hg
    have ha := harea g hg b hb
    have hsize := hb.size
    exact ⟨by omega, i.aligned_ptr g hg, by omega, by omega⟩
  · have hdistinct : σ.held.Pairwise fun g g' => g.ptr ≠ g'.ptr :=
      List.pairwise_map.mp i.distinct
    refine hdistinct.imp_of_mem fun {g g'} hg hg' hne => ?_
    obtain ⟨b, hb⟩ := i.owns g hg
    obtain ⟨b', hb'⟩ := i.owns g' hg'
    have ha := harea g hg b hb
    have ha' := harea g' hg' b' hb'
    rcases Nat.lt_trichotomy b b' with hlt | rfl | hlt
    · have := i.tiles.disjoint hb.mem hb'.mem hlt
      omega
    · exact absurd (hb.ptr.trans hb'.ptr.symm) hne
    · have := i.tiles.disjoint hb'.mem hb.mem hlt
      omega

end Session
end Mqx.Lwmem
