import Mqx.Mem.Lwmem

/-!
# Well formed lightweight pools

A pool is described by its blocks in address order and by its free list. Cutting a free block
in two, taking a free block off the list, putting a block on the list and joining two
neighbours are the four edits that the calls are made of; each keeps the layout of the pool.
-/

namespace Mqx.Lwmem

open PointerList
open Function (update)
open Mem (add32_of_lt sub32_of_le)

/-- The blocks tile the pool, and the free list threads some of them in address order. Addresses
and sizes are multiples of `unit`. -/
structure Layout (s : State) (mp unit : ℕ) (bs fl : List ℕ) : Prop where
  valid : (s.pools mp).valid = lwmemPoolValid
  tiles : Tiles s.heap.blocksize (s.pools mp).poolAllocStartPtr bs (s.pools mp).poolAllocEndPtr
  size : ∀ b ∈ bs, lwmemMinMemoryStorageSize ≤ s.heap.blocksize b
  aligned : ∀ b ∈ bs, unit ∣ b ∧ unit ∣ s.heap.blocksize b
  pool : ∀ b ∈ bs, s.heap.pool b = mp
  free : Linked s.heap.u (s.pools mp).poolFreeListPtr fl 0
  free_mem : ∀ b ∈ fl, b ∈ bs
  sorted : fl.Pairwise (· < ·)
  start_pos : 0 < (s.pools mp).poolAllocStartPtr
  limit : (s.pools mp).poolAllocEndPtr < 2 ^ 32

/-- Between two free blocks there is a block in use. -/
def Gaps (h : Blocks) (fl : List ℕ) : Prop := fl.Pairwise fun b c => b + h.blocksize b < c

/-- The invariant of one pool between calls. -/
structure PoolInv (s : State) (mp unit : ℕ) (bs fl : List ℕ) : Prop
    extends Layout s mp unit bs fl where
  gaps : Gaps s.heap fl

/-- Some lists of blocks describe the pool. -/
def WellFormed (s : State) (mp unit : ℕ) : Prop := ∃ bs fl, PoolInv s mp unit bs fl

theorem minSize_eq : lwmemMinMemoryStorageSize = 16 := rfl

/-- The header of a block that the user gets the address of. -/
theorem getLwmemblockPtr_userPtr {b : ℕ} (hb : b + 16 < 2 ^ 32) : getLwmemblockPtr (userPtr b) = b := by
  have huser : userPtr b = b + 12 := add32_of_lt (by simp only [sizeofLwmemBlock]; omega)
  simp only [getLwmemblockPtr, sizeofLwmemBlock, huser]
  rw [sub32_of_le (by omega) (by omega)]
  omega

theorem userPtr_ne_zero {b : ℕ} (hb : b + 16 < 2 ^ 32) : userPtr b ≠ 0 := by
  rw [userPtr, add32_of_lt (by simp only [sizeofLwmemBlock]; omega)]
  simp only [sizeofLwmemBlock]
  omega

namespace State

variable (s : State)

/-- Cut a free block in two at `n`; both parts are on the free list. -/
def split (mp b n : ℕ) : State :=
  ((s.addRest mp n (b + s.heap.blocksize b - n) (s.heap.u b)).setSize b (n - b)).setNext b n

/-- Take a block off the free list, `prev` being the one before it. -/
def take (td mp b prev : ℕ) : State := (s.unlink mp b prev (s.heap.u b)).markUsed td mp b

/-- Put a block at the head of the free list. -/
def insertHead (mp b : ℕ) : State :=
  let s := s.setNext b (s.pools mp).poolFreeListPtr
  s.setPool mp { s.pools mp with poolFreeListPtr := b }

/-- Put a block behind the free block `p`. -/
def insertBehind (p b : ℕ) : State := (s.setNext b (s.heap.u p)).setNext p b

/-- Join two free blocks. -/
def merge (p q : ℕ) : State :=
  { s with heap := Blocks.zero { s.heap with
      blocksize := update s.heap.blocksize p (s.heap.blocksize p + s.heap.blocksize q)
      u := update s.heap.u p (s.heap.u q) } q }

end State

namespace Layout

variable {s s' : State} {mp unit td b n p q prev : ℕ} {bs l r fl f g : List ℕ}

/-- All arithmetic facts about a block that the operations need. -/
theorem bounds (i : Layout s mp unit bs fl) (hb : b ∈ bs) :
    16 ≤ s.heap.blocksize b ∧ 0 < b ∧
      (s.pools mp).poolAllocStartPtr ≤ b ∧
      b + s.heap.blocksize b ≤ (s.pools mp).poolAllocEndPtr ∧
      (s.pools mp).poolAllocEndPtr < 4294967296 := by
  have h2 := i.tiles.bounds hb
  have h3 := i.start_pos
  exact ⟨i.size b hb, by omega, h2.1, h2.2, i.limit⟩

theorem pos_size (i : Layout s mp unit bs fl) (hb : b ∈ bs) : 0 < s.heap.blocksize b := by
  have := i.size b hb
  rw [minSize_eq] at this
  omega

theorem nodup_free (i : Layout s mp unit bs fl) : fl.Nodup := i.sorted.imp fun hlt => Nat.ne_of_lt hlt

theorem nodup_blocks (i : Layout s mp unit bs fl) : bs.Nodup := i.tiles.nodup fun _ hb => i.pos_size hb

theorem null_notMem (i : Layout s mp unit bs fl) : 0 ∉ fl := by
  intro h0
  have := (i.bounds (i.free_mem 0 h0)).2.1
  omega

/-- The walks along the free list end. -/
theorem length_lt (i : Layout s mp unit bs fl) : fl.length + 2 < maxSteps := by
  have h1 := i.tiles.length_le (k := 16) i.size
  have h2 := (i.nodup_free.subperm i.free_mem).length_le
  have h3 := i.limit
  unfold maxSteps
  omega

theorem head_eq (i : Layout s mp unit bs fl) : (s.pools mp).poolFreeListPtr = fl.headD 0 := by
  have h := i.free
  cases fl with
  | nil => exact h
  | cons b g => exact h.1

/-- `NEXTBLOCK` of a free block is the next one. -/
theorem next_eq (i : Layout s mp unit bs (f ++ b :: g)) : s.heap.u b = g.headD 0 := by
  have h := (linked_append_cons.mp i.free).2
  cases g with
  | nil => exact h
  | cons c g => exact h.1

/-- The layout depends on the headers of its blocks only. -/
theorem congr (i : Layout s mp unit bs fl)
    (hv : (s'.pools mp).valid = (s.pools mp).valid)
    (hs : (s'.pools mp).poolAllocStartPtr = (s.pools mp).poolAllocStartPtr)
    (he : (s'.pools mp).poolAllocEndPtr = (s.pools mp).poolAllocEndPtr)
    (hf : (s'.pools mp).poolFreeListPtr = (s.pools mp).poolFreeListPtr)
    (hsize : ∀ b ∈ bs, s'.heap.blocksize b = s.heap.blocksize b)
    (hpool : ∀ b ∈ bs, s'.heap.pool b = s.heap.pool b)
    (hu : ∀ b ∈ fl, s'.heap.u b = s.heap.u b) : Layout s' mp unit bs fl where
  valid := hv.trans i.valid
  tiles := by
    rw [hs, he]
    exact i.tiles.congr hsize
  size b hb := by
    rw [hsize b hb]
    exact i.size b hb
  aligned b hb := by
    rw [hsize b hb]
    exact i.aligned b hb
  pool b hb := (hpool b hb).trans (i.pool b hb)
  free := by
    rw [hf]
    exact i.free.congr hu
  free_mem := i.free_mem
  sorted := i.sorted
  start_pos := by
    rw [hs]
    exact i.start_pos
  limit := by
    rw [he]
    exact i.limit

/-- Cutting a free block in two. -/
theorem split (i : Layout s mp unit (l ++ b :: r) (f ++ b :: g)) (hn : unit ∣ n)
    (hlo : b + 16 ≤ n) (hhi : n + 16 ≤ b + s.heap.blocksize b) :
    Layout (s.split mp b n) mp unit (l ++ b :: n :: r) (f ++ b :: n :: g) := by
  have hb : b ∈ l ++ b :: r := by simp
  have hbb := i.bounds hb
  have hnb : n ≠ b := by omega
  have hnbs : n ∉ l ++ b :: r := i.tiles.notMem_of_interior hb (by omega) (by omega)
  have hnfl : n ∉ f ++ b :: g := fun h => hnbs (i.free_mem n h)
  have hsize : (s.split mp b n).heap.blocksize =
      update (update s.heap.blocksize n (b + s.heap.blocksize b - n)) b (n - b) := rfl
  have hsn : (s.split mp b n).heap.blocksize n = b + s.heap.blocksize b - n := by
    rw [hsize, Function.update_of_ne hnb, Function.update_self]
  have hsb : (s.split mp b n).heap.blocksize b = n - b := by
    rw [hsize, Function.update_self]
  have hold : ∀ c ∈ l ++ r, (s.split mp b n).heap.blocksize c = s.heap.blocksize c := by
    intro c hc
    have hcb : c ≠ b := by
      rintro rfl
      have hd := i.nodup_blocks
      grind
    have hcn : c ≠ n := by
      rintro rfl
      exact hnbs (by simp only [List.mem_append, List.mem_cons] at hc ⊢; tauto)
    rw [hsize, Function.update_of_ne hcb, Function.update_of_ne hcn]
  have hmem : ∀ c ∈ l ++ b :: n :: r, c = n ∨ c ∈ l ++ b :: r := by
    intro c hc
    simp only [List.mem_append, List.mem_cons] at hc ⊢
    tauto
  refine ⟨i.valid, ?_, ?_, ?_, ?_, ?_, ?_, ?_, i.start_pos, i.limit⟩
  · refine i.tiles.split (n := n) (k := b + s.heap.blocksize b - n) (by omega)
      (fun c hc => hold c (by simp [hc])) (fun c hc => hold c (by simp [hc])) ?_ hsn
    rw [hsb]
    omega
  · intro c hc
    rcases hmem c hc with rfl | hc
    · rw [hsn, minSize_eq]
      omega
    · by_cases hcb : c = b
      · rw [hcb, hsb, minSize_eq]
        omega
      · rw [hold c (by simpa [hcb] using hc)]
        exact i.size c hc
  · obtain ⟨hb1, hb2⟩ := i.aligned b hb
    intro c hc
    rcases hmem c hc with rfl | hc
    · rw [hsn]
      exact ⟨hn, Nat.dvd_sub (Nat.dvd_add hb1 hb2) hn⟩
    · by_cases hcb : c = b
      · rw [hcb, hsb]
        exact ⟨hb1, Nat.dvd_sub hn hb1⟩
      · rw [hold c (by simpa [hcb] using hc)]
        exact i.aligned c hc
  · intro c hc
    have hpool : (s.split mp b n).heap.pool = update s.heap.pool n mp := rfl
    rw [hpool]
    rcases hmem c hc with rfl | hold
    · exact Function.update_self ..
    · have hcn : c ≠ n := fun h => hnbs (by rwa [← h])
      rw [Function.update_of_ne hcn]
      exact i.pool c hold
  · exact i.free.insert i.nodup_free hnfl
  · intro c hc
    by_cases hcn : c = n
    · simp [hcn]
    · have := i.free_mem c (by simpa [hcn] using hc)
      simp only [List.mem_append, List.mem_cons] at this ⊢
      tauto
  · have hlt : ∀ c ∈ g, n < c := by
      intro c hc
      have hbc : b < c := by
        have := (List.pairwise_append.mp i.sorted).2.1
        exact (List.pairwise_cons.mp this).1 c hc
      have := i.tiles.disjoint hb (i.free_mem c (by simp [hc])) hbc
      omega
    obtain ⟨hf, hg, hfg⟩ := List.pairwise_append.mp i.sorted
    obtain ⟨hbg, hg⟩ := List.pairwise_cons.mp hg
    refine List.pairwise_append.mpr ⟨hf, ?_, ?_⟩
    · refine List.pairwise_cons.mpr ⟨?_, List.pairwise_cons.mpr ⟨hlt, hg⟩⟩
      intro c hc
      rcases List.mem_cons.mp hc with rfl | hc
      · omega
      · exact hbg c hc
    · intro c hc d hd
      rcases List.mem_cons.mp hd with rfl | hd
      · exact hfg c hc d (by simp)
      rcases List.mem_cons.mp hd with rfl | hd
      · have := hfg c hc b (by simp)
        omega
      · exact hfg c hc d (by simp [hd])

/-- Taking a block off the free list. -/
theorem take (i : Layout s mp unit bs (f ++ b :: g)) (hprev : f ≠ [] → f.getLast? = some prev) :
    Layout (s.take td mp b prev) mp unit bs (f ++ g) := by
  have hb : b ∈ bs := i.free_mem b (by simp)
  have hd := i.nodup_free
  have hsub : ∀ c ∈ f ++ g, c ∈ f ++ b :: g := by
    intro c hc
    simp only [List.mem_append, List.mem_cons] at hc ⊢
    tauto
  have hne : ∀ c ∈ f ++ g, c ≠ b := by
    rintro c hc rfl
    grind
  have hpool : ∀ s' : State, s'.heap.pool = s.heap.pool → ∀ c ∈ bs,
      (s'.markUsed td mp b).heap.pool c = mp := by
    intro s' hs' c hc
    simp only [State.markUsed, hs']
    by_cases hcb : c = b
    · rw [hcb, Function.update_self]
    · rw [Function.update_of_ne hcb]
      exact i.pool c hc
  have hsorted : (f ++ g).Pairwise (· < ·) := i.sorted.sublist (by simp)
  unfold State.take State.unlink
  rcases List.eq_nil_or_concat f with rfl | ⟨f, p, rfl⟩
  · have hhead : b = (s.pools mp).poolFreeListPtr := i.head_eq.symm
    simp only [if_pos hhead, State.setPool]
    refine ⟨?_, ?_, i.size, i.aligned, hpool _ rfl, ?_, fun c hc => i.free_mem c (hsub c hc), hsorted,
      ?_, ?_⟩
    · simpa [State.markUsed] using i.valid
    · simpa [State.markUsed] using i.tiles
    · simp only [State.markUsed, Function.update_self, List.nil_append]
      refine Linked.congr i.free.2 fun c hc => ?_
      exact Function.update_of_ne (hne c (by simpa using hc)) _ _
    · simpa [State.markUsed] using i.start_pos
    · simpa [State.markUsed] using i.limit
  · have hp : prev = p := by
      have := hprev (by simp)
      simpa using this.symm
    subst hp
    have hhead : b ≠ (s.pools mp).poolFreeListPtr := by
      rw [i.head_eq]
      intro hh
      cases f with
      | nil => exact hne prev (by simp) (by simpa using hh.symm)
      | cons c f => exact hne c (by simp) (by simpa using hh.symm)
    simp only [if_neg hhead]
    refine ⟨i.valid, i.tiles, i.size, i.aligned, hpool _ rfl, ?_,
      fun c hc => i.free_mem c (hsub c hc), hsorted, i.start_pos, i.limit⟩
    have hfree := i.free
    simp only [List.concat_eq_append, List.append_assoc, List.cons_append, List.nil_append] at hfree hd ⊢
    refine (hfree.remove hd).congr fun c hc => ?_
    exact Function.update_of_ne (hne c (by simpa using hc)) _ _

/-- The list with the block put in stays sorted. -/
theorem sorted_insert (i : Layout s mp unit bs (f ++ g)) (hf : ∀ c ∈ f, c < b) (hg : ∀ c ∈ g, b < c) :
    (f ++ b :: g).Pairwise (· < ·) := by
  obtain ⟨h1, h2, h3⟩ := List.pairwise_append.mp i.sorted
  refine List.pairwise_append.mpr ⟨h1, List.pairwise_cons.mpr ⟨hg, h2⟩, ?_⟩
  intro c hc d hd
  rcases List.mem_cons.mp hd with rfl | hd
  · exact hf c hc
  · exact h3 c hc d hd

/-- Putting a block at the head of the free list. -/
theorem insertHead (i : Layout s mp unit bs g) (hb : b ∈ bs) (hg : ∀ c ∈ g, b < c) :
    Layout (s.insertHead mp b) mp unit bs (b :: g) := by
  refine ⟨?_, ?_, i.size, i.aligned, i.pool, ?_, ?_, i.sorted_insert (f := []) (by simp) hg, ?_, ?_⟩
  · simpa [State.insertHead, State.setPool, State.setNext] using i.valid
  · simpa [State.insertHead, State.setPool, State.setNext] using i.tiles
  · simp only [State.insertHead, State.setPool, State.setNext, Function.update_self, linked_cons,
      true_and]
    refine i.free.congr fun c hc => ?_
    exact Function.update_of_ne (Nat.ne_of_gt (hg c hc)) _ _
  · intro c hc
    rcases List.mem_cons.mp hc with rfl | hc
    · exact hb
    · exact i.free_mem c hc
  · simpa [State.insertHead, State.setPool, State.setNext] using i.start_pos
  · simpa [State.insertHead, State.setPool, State.setNext] using i.limit

/-- Putting a block behind a free block. -/
theorem insertBehind (i : Layout s mp unit bs (f ++ p :: g)) (hb : b ∈ bs) (hp : p < b)
    (hg : ∀ c ∈ g, b < c) : Layout (s.insertBehind p b) mp unit bs (f ++ p :: b :: g) := by
  obtain ⟨-, -, hfp⟩ := List.pairwise_append.mp i.sorted
  have hf : ∀ c ∈ f ++ [p], c < b := by
    intro c hc
    rcases List.mem_append.mp hc with hc | hc
    · exact (hfp c hc p (by simp)).trans hp
    · rwa [List.mem_singleton.mp hc]
  have hsplit : f ++ p :: g = (f ++ [p]) ++ g := by simp
  have hnot : b ∉ f ++ p :: g := by
    rw [hsplit]
    intro hm
    rcases List.mem_append.mp hm with hm | hm
    · exact absurd (hf b hm) (lt_irrefl b)
    · exact absurd (hg b hm) (lt_irrefl b)
  refine ⟨i.valid, i.tiles, i.size, i.aligned, i.pool, i.free.insert i.nodup_free hnot, ?_, ?_,
    i.start_pos, i.limit⟩
  · intro c hc
    by_cases hcb : c = b
    · rwa [hcb]
    · exact i.free_mem c (by simpa [hcb] using hc)
  · have := (hsplit ▸ i).sorted_insert hf hg
    simpa using this

/-- A block is followed by the block that starts at its end. -/
theorem exists_adjacent (i : Layout s mp unit bs fl) (hp : p ∈ bs) (hq : q ∈ bs)
    (he : p + s.heap.blocksize p = q) : ∃ l r, bs = l ++ p :: q :: r := by
  obtain ⟨l, r, rfl⟩ := List.append_of_mem hp
  have htail := (Tiles.append_cons.mp i.tiles).2
  have hpos := i.pos_size hp
  cases r with
  | nil =>
    have hend : p + s.heap.blocksize p = (s.pools mp).poolAllocEndPtr := htail
    have := i.bounds hq
    omega
  | cons c r =>
    have hc : p + s.heap.blocksize p = c := (Tiles.cons.mp htail).1
    rw [he] at hc
    exact ⟨l, r, by rw [hc]⟩

/-- Joining two free blocks. -/
theorem merge (i : Layout s mp unit (l ++ p :: q :: r) (f ++ p :: q :: g)) :
    Layout (s.merge p q) mp unit (l ++ p :: r) (f ++ p :: g) := by
  have hd := i.nodup_blocks
  have hdf := i.nodup_free
  have hpq : p ≠ q := by
    rintro rfl
    grind
  have hne : ∀ c ∈ l ++ p :: r, c ∈ l ++ p :: q :: r ∧ c ≠ q := by
    intro c hc
    grind
  have hold : ∀ c ∈ l ++ r, (s.merge p q).heap.blocksize c = s.heap.blocksize c := by
    intro c hc
    have hcq : c ≠ q := by grind
    have hcp : c ≠ p := by grind
    simp [State.merge, Blocks.zero, hcq, hcp]
  have hsp : (s.merge p q).heap.blocksize p = s.heap.blocksize p + s.heap.blocksize q := by
    simp [State.merge, Blocks.zero, hpq]
  have hkeep : ∀ c ∈ l ++ p :: r, lwmemMinMemoryStorageSize ≤ (s.merge p q).heap.blocksize c ∧
      unit ∣ c ∧ unit ∣ (s.merge p q).heap.blocksize c := by
    intro c hc
    by_cases hcp : c = p
    · have h1 := i.aligned p (by simp)
      have h2 := i.aligned q (by simp)
      rw [hcp, hsp]
      exact ⟨(i.size p (by simp)).trans (Nat.le_add_right _ _), h1.1, Nat.dvd_add h1.2 h2.2⟩
    · rw [hold c (by simpa [hcp] using hc)]
      exact ⟨i.size c (hne c hc).1, i.aligned c (hne c hc).1⟩
  have hfne : ∀ c ∈ f ++ p :: g, c ≠ q := by
    intro c hc
    grind
  refine ⟨i.valid, ?_, fun c hc => (hkeep c hc).1, fun c hc => (hkeep c hc).2, ?_, ?_, ?_, ?_,
    i.start_pos, i.limit⟩
  · exact i.tiles.merge (fun c hc => hold c (by simp [hc])) (fun c hc => hold c (by simp [hc])) hsp
  · intro c hc
    simp only [State.merge, Blocks.zero, Function.update_of_ne (hne c hc).2]
    exact i.pool c (hne c hc).1
  · refine (i.free.remove hdf).congr fun c hc => ?_
    simp [State.merge, Blocks.zero, hfne c hc]
  · intro c hc
    have := i.free_mem c (by simp only [List.mem_append, List.mem_cons] at hc ⊢; tauto)
    have hcq := hfne c hc
    simp only [List.mem_append, List.mem_cons] at this ⊢
    tauto
  · exact i.sorted.sublist (by simp)

/-- Multiples of a unit are multiples of its divisors. -/
theorem weaken {k : ℕ} (i : Layout s mp unit bs fl) (hk : k ∣ unit) : Layout s mp k bs fl :=
  { i with aligned := fun b hb => ⟨hk.trans (i.aligned b hb).1, hk.trans (i.aligned b hb).2⟩ }

end Layout

theorem PoolInv.weaken {s : State} {mp unit k : ℕ} {bs fl : List ℕ} (i : PoolInv s mp unit bs fl)
    (hk : k ∣ unit) : PoolInv s mp k bs fl :=
  ⟨i.toLayout.weaken hk, i.gaps⟩

/-- A pool of one free block. -/
theorem PoolInv.lwmemCreatePool (s : State) (mp : ℕ) {start size : ℕ} (hstart : start ≠ 0)
    (hlo : start + 15 < 2 ^ 32) (hhi : start + size < 2 ^ 32)
    (hroom : memoryAlignValLarger start + 16 ≤ alignAddrToLowerMem (start + size)) :
    PoolInv (lwmemCreatePool s mp start size) mp 16 [memoryAlignValLarger start]
      [memoryAlignValLarger start] := by
  have hblock : memoryAlignValLarger start = start + 15 - (start + 15) % 16 := by
    simp only [memoryAlignValLarger, alignAddrToLowerMem, pspMemoryAlignment, pspCacheLineSize,
      add32_of_lt hlo]
  have hend : alignAddrToLowerMem (start + size) = start + size - (start + size) % 16 := rfl
  have hsub : sub32 (alignAddrToLowerMem (start + size)) (memoryAlignValLarger start) =
      alignAddrToLowerMem (start + size) - memoryAlignValLarger start :=
    sub32_of_le (by omega) (by omega)
  unfold Lwmem.lwmemCreatePool
  simp only [add32_of_lt hhi, hsub]
  refine ⟨⟨by simp, ?_, ?_, ?_, by simp, by simp, by simp, by simp, ?_, ?_⟩, by simp [Gaps]⟩
  · simp only [Tiles, Function.update_self, linked_cons, true_and, linked_nil]
    omega
  · intro b hb
    rw [List.mem_singleton.mp hb, minSize_eq]
    simp only [Function.update_self]
    omega
  · intro b hb
    rw [List.mem_singleton.mp hb]
    simp only [Function.update_self]
    omega
  · simp only [Function.update_self]
    omega
  · simp only [Function.update_self]
    omega

end Mqx.Lwmem
