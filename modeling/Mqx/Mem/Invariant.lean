import Mqx.Mem.Operations

/-!
# Well formed pools

A pool is described by three ghost lists: its blocks in address order, the last of
them the end sentinel, its free list, and the resource list of every task. Blocks
that a task is in the middle of releasing are on neither list; they are collected
in `limbo`, which is empty between calls.

The invariant is split by the header fields it reads. `Physical` constrains sizes,
left neighbours and checksums, the free list constrains `NEXTBLOCK` and
`USER_AREA`, so the edits of one part leave the other part alone.
-/

namespace Mqx.Mem

open PointerList

/-- The blocks tile the pool up to and including the end sentinel, and every header
is consistent. `_mem_free` resets the type of a block before it computes its checksum
again; blocks in between are listed in `stale`. -/
structure Physical (h : Storeblocks) (start end_ : ℕ) (bs stale : List ℕ) : Prop where
  tiles : Tiles h.blocksize start bs (end_ + mqxMinMemoryStorageSize)
  back : BackLinked h.prevblock 0 bs
  last : ∃ l, bs = l ++ [end_]
  size : ∀ b ∈ bs, mqxMinMemoryStorageSize ≤ h.blocksize b
  aligned : ∀ b ∈ bs, MemoryAligned b ∧ MemoryAligned (h.blocksize b)
  sums : ∀ b ∈ bs, b ∉ stale → h.ValidChecksum b
  start_pos : 0 < start
  limit : end_ + mqxMinMemoryStorageSize < 2 ^ 32

/-- No two physically adjacent blocks are both free. -/
def Apart (h : Storeblocks) (bs : List ℕ) : Prop :=
  bs.IsChain fun a b => ¬(h.BlockIsFree a ∧ h.BlockIsFree b)

/-- A `MEMORY_RESOURCE_LIST`: the links are user pointers of the blocks. -/
def ResourceList (h : Storeblocks) (first : ℕ) (l : List ℕ) : Prop :=
  Linked (fun u => h.nextblock (getMemblockPtr u)) first (l.map userAreaPtr) 0

/-- The lists describe the pool, whether or not neighbouring free blocks have been
coalesced. -/
structure Layout (s : Kernel) (mp : ℕ) (bs fl : List ℕ) (rl : ℕ → List ℕ)
    (limbo stale : List ℕ) : Prop where
  phys : Physical s.heap (s.pools mp).poolPtr (s.pools mp).poolEndPtr bs stale
  free : (s.freeList mp).Represents 0 fl
  mem_free : ∀ b, b ∈ fl ↔ b ∈ bs ∧ s.heap.BlockIsFree b
  end_used : ¬s.heap.BlockIsFree (s.pools mp).poolEndPtr
  res : ∀ t, ResourceList s.heap (s.memoryResourceList t) (rl t)
  res_nodup : ∀ t, (rl t).Nodup
  res_task : ∀ t, ∀ b ∈ rl t, s.heap.taskNumber b = t
  limbo_nodup : limbo.Nodup
  limbo_notMem : ∀ b ∈ limbo, ∀ t, b ∉ rl t
  stale_limbo : ∀ b ∈ stale, b ∈ limbo
  owned : ∀ b, ((∃ t, b ∈ rl t) ∨ b ∈ limbo) ↔
    b ∈ bs ∧ b ≠ (s.pools mp).poolEndPtr ∧ ¬s.heap.BlockIsFree b
  pool : ∀ b, ((∃ t, b ∈ rl t) ∨ b ∈ limbo) → s.heap.memPoolPtr b = mp

/-- The invariant of one pool. -/
structure PoolInv (s : Kernel) (mp : ℕ) (bs fl : List ℕ) (rl : ℕ → List ℕ)
    (limbo stale : List ℕ) : Prop extends Layout s mp bs fl rl limbo stale where
  apart : Apart s.heap bs

/-- A pool between calls: some lists of blocks satisfy the invariant and no block is
being released. -/
def WellFormed (s : Kernel) (mp : ℕ) : Prop :=
  ∃ bs fl rl, PoolInv s mp bs fl rl [] []

theorem minSize_eq : mqxMinMemoryStorageSize = 48 := rfl

theorem memoryAligned_iff {p : ℕ} : MemoryAligned p ↔ p % 16 = 0 := Iff.rfl

theorem add32_of_lt {a b : ℕ} (h : a + b < 2 ^ 32) : add32 a b = a + b := Nat.mod_eq_of_lt h

theorem sub32_of_le {a b : ℕ} (hb : b ≤ a) (ha : a < 2 ^ 32) : sub32 a b = a - b := by
  unfold sub32
  omega

theorem userAreaPtr_eq {b : ℕ} (h : b + 48 < 2 ^ 32) : userAreaPtr b = b + 32 :=
  add32_of_lt (by simp only [userAreaOffset]; omega)

@[simp] theorem getMemblockPtr_userAreaPtr {b : ℕ} (h : b + 48 < 2 ^ 32) :
    getMemblockPtr (userAreaPtr b) = b := by
  rw [userAreaPtr_eq h]
  unfold getMemblockPtr sub32 userAreaOffset
  omega

/-! ## Resource lists -/

namespace ResourceList

variable {h h' : Storeblocks} {first : ℕ} {l r : List ℕ}

theorem congr (a : ResourceList h first l) (hl : ∀ b ∈ l, b + 48 < 2 ^ 32)
    (e : ∀ b ∈ l, h'.nextblock b = h.nextblock b) : ResourceList h' first l := by
  refine Linked.congr a fun u hu => ?_
  obtain ⟨b, hb, rfl⟩ := List.mem_map.mp hu
  simp only [getMemblockPtr_userAreaPtr (hl b hb), e b hb]

theorem cons {b : ℕ} (hb : b + 48 < 2 ^ 32) :
    ResourceList h (userAreaPtr b) (b :: l) ↔ ResourceList h (h.nextblock b) l := by
  simp only [ResourceList, List.map_cons, linked_cons, true_and, getMemblockPtr_userAreaPtr hb]

/-- Splitting a resource list at one of its blocks. -/
theorem append_cons {b : ℕ} (hb : b + 48 < 2 ^ 32) : ResourceList h first (l ++ b :: r) ↔
    Linked (fun u => h.nextblock (getMemblockPtr u)) first (l.map userAreaPtr) (userAreaPtr b) ∧
      ResourceList h (h.nextblock b) r := by
  simp only [ResourceList, List.map_append, List.map_cons, linked_append_cons,
    getMemblockPtr_userAreaPtr hb]

end ResourceList

/-! ## Physical consistency -/

/-- The fields of a header that `Physical` reads are the same in both heaps. -/
structure SameHeader (h h' : Storeblocks) (b : ℕ) : Prop where
  taskNumber : h'.taskNumber b = h.taskNumber b
  memType : h'.memType b = h.memType b
  blocksize : h'.blocksize b = h.blocksize b
  prevblock : h'.prevblock b = h.prevblock b
  checksum : h'.checksum b = h.checksum b

theorem SameHeader.validChecksum {h h' : Storeblocks} {b : ℕ} (e : SameHeader h h' b)
    (hv : h.ValidChecksum b) : h'.ValidChecksum b := by
  simp only [Storeblocks.ValidChecksum, Storeblocks.headerSum, e.taskNumber, e.memType,
    e.blocksize, e.prevblock, e.checksum]
  exact hv

namespace Physical

variable {h h' : Storeblocks} {start end_ : ℕ} {bs l r x x' : List ℕ}

theorem end_mem (p : Physical h start end_ bs x) : end_ ∈ bs := by
  obtain ⟨l, rfl⟩ := p.last
  simp

theorem nodup (p : Physical h start end_ bs x) : bs.Nodup :=
  p.tiles.nodup fun b hb => by
    have := p.size b hb
    rw [minSize_eq] at this
    omega

theorem ne_pair {b m c : ℕ} (p : Physical h start end_ (l ++ b :: m :: r) x) (hc : c ∈ l ++ r) :
    c ∈ l ++ b :: m :: r ∧ c ≠ b ∧ c ≠ m := by
  have hd := p.nodup
  grind

theorem pos (p : Physical h start end_ bs x) {b : ℕ} (hb : b ∈ bs) : 0 < b :=
  lt_of_lt_of_le p.start_pos (p.tiles.bounds hb).1

/-- All arithmetic facts about a block that the operations need. -/
theorem bounds (p : Physical h start end_ bs x) {b : ℕ} (hb : b ∈ bs) :
    b % 16 = 0 ∧ h.blocksize b % 16 = 0 ∧ 48 ≤ h.blocksize b ∧ 0 < b ∧
      b + h.blocksize b ≤ end_ + 48 ∧ end_ + 48 < 4294967296 :=
  ⟨(p.aligned b hb).1, (p.aligned b hb).2, p.size b hb, p.pos hb, (p.tiles.bounds hb).2, p.limit⟩

/-- Lists of blocks are short enough for every walk along them to end. -/
theorem length_lt (p : Physical h start end_ bs x) {l : List ℕ} (hd : l.Nodup)
    (hl : ∀ b ∈ l, b ∈ bs) : l.length + 2 < maxSteps := by
  have h1 := p.tiles.length_le (k := 48) p.size
  have h2 := (hd.subperm hl).length_le
  have h3 := p.limit
  rw [minSize_eq] at h1 h3
  unfold maxSteps
  omega

/-- The address computed by `NEXT_PHYS` is where the block ends. -/
theorem nextPhys_eq (p : Physical h start end_ bs x) {b : ℕ} (hb : b ∈ bs) :
    h.nextPhys b = b + h.blocksize b := by
  have := p.bounds hb
  exact add32_of_lt (by omega)

/-- A block other than the sentinel has a right neighbour. -/
theorem exists_next (p : Physical h start end_ bs x) {b : ℕ} (hb : b ∈ bs) (he : b ≠ end_) :
    ∃ l m r, bs = l ++ b :: m :: r := by
  obtain ⟨l, r, rfl⟩ := List.append_of_mem hb
  cases r with
  | nil =>
    obtain ⟨l', hl'⟩ := p.last
    have := (List.append_inj' hl' rfl).2
    simp at this
    exact absurd this he
  | cons m r => exact ⟨l, m, r, rfl⟩

theorem next_eq {b m : ℕ} (p : Physical h start end_ (l ++ b :: m :: r) x) :
    b + h.blocksize b = m :=
  (Tiles.cons.mp (Tiles.append_cons.mp p.tiles).2).1

/-- Between a block and its right neighbour there is no block. -/
theorem le_of_lt_next {b m c : ℕ} (p : Physical h start end_ (l ++ b :: m :: r) x)
    (hc : c ∈ l ++ b :: m :: r) (hlt : c < m) : c ≤ b := by
  by_contra hbc
  have := p.tiles.disjoint (b := b) (by simp) hc (by omega)
  have := p.next_eq
  omega

theorem prev_eq {b : ℕ} (p : Physical h start end_ (l ++ b :: r) x) :
    h.prevblock b = l.getLastD 0 :=
  (backLinked_append_cons.mp p.back).2.1

/-- `PREVBLOCK` of the right neighbour. -/
theorem prev_next_eq {b m : ℕ} (p : Physical h start end_ (l ++ b :: m :: r) x) :
    h.prevblock m = b :=
  (backLinked_append_cons.mp p.back).2.2.1

/-- The block at the address computed by `NEXT_PHYS` names its left neighbour. -/
theorem prev_nextPhys (p : Physical h start end_ bs x) {b : ℕ} (hb : b ∈ bs) (he : b ≠ end_) :
    h.prevblock (h.nextPhys b) = b := by
  obtain ⟨l, m, r, rfl⟩ := p.exists_next hb he
  rw [p.nextPhys_eq hb, p.next_eq, p.prev_next_eq]

/-- The part of the list that follows a block ends in the sentinel. -/
theorem last_of_append {m : ℕ} (p : Physical h start end_ (l ++ m :: r) x) :
    ∃ t, m :: r = t ++ [end_] := by
  obtain ⟨t, ht⟩ := p.last
  rcases List.eq_nil_or_concat (m :: r) with hn | ⟨t', e, he⟩
  · simp at hn
  · rw [he, List.concat_eq_append, ← List.append_assoc] at ht
    have := (List.append_inj' ht rfl).2
    simp only [List.cons.injEq, and_true] at this
    exact ⟨t', by rw [he, List.concat_eq_append, this]⟩

theorem congr (p : Physical h start end_ bs x) (e : ∀ b ∈ bs, SameHeader h h' b) :
    Physical h' start end_ bs x where
  tiles := p.tiles.congr fun b hb => (e b hb).blocksize
  back := p.back.congr fun b hb => (e b hb).prevblock
  last := p.last
  size b hb := by rw [(e b hb).blocksize]; exact p.size b hb
  aligned b hb := by rw [(e b hb).blocksize]; exact p.aligned b hb
  sums b hb hx := (e b hb).validChecksum (p.sums b hb hx)
  start_pos := p.start_pos
  limit := p.limit

/-- What holds of a block whose header is not touched. -/
theorem keep {c : ℕ} (p : Physical h start end_ bs x) (hc : c ∈ bs) (e : SameHeader h h' c) :
    48 ≤ h'.blocksize c ∧ c % 16 = 0 ∧ h'.blocksize c % 16 = 0 ∧
      (c ∉ x → h'.ValidChecksum c) := by
  rw [e.blocksize]
  exact ⟨p.size c hc, (p.aligned c hc).1, (p.aligned c hc).2, fun hx =>
    e.validChecksum (p.sums c hc hx)⟩

/-- Rewriting the owner of a block keeps the pool consistent when its checksum is
computed again. -/
theorem retag {b : ℕ} (p : Physical h start end_ bs x) (e : ∀ c ∈ bs, c ≠ b → SameHeader h h' c)
    (hs : h'.blocksize b = h.blocksize b) (hp : h'.prevblock b = h.prevblock b)
    (hx : ∀ c ∈ x, c ∈ x' ∨ c = b) (hv : h'.ValidChecksum b) : Physical h' start end_ bs x' := by
  have hsize : ∀ c ∈ bs, h'.blocksize c = h.blocksize c := fun c hc => by
    by_cases hcb : c = b
    · rw [hcb, hs]
    · exact (e c hc hcb).blocksize
  refine ⟨p.tiles.congr hsize, p.back.congr fun c hc => ?_, p.last, fun c hc => ?_, fun c hc => ?_,
    fun c hc => ?_, p.start_pos, p.limit⟩
  · by_cases hcb : c = b
    · rw [hcb, hp]
    · exact (e c hc hcb).prevblock
  · rw [hsize c hc]; exact p.size c hc
  · rw [hsize c hc]; exact p.aligned c hc
  · by_cases hcb : c = b
    · intro _
      rw [hcb]
      exact hv
    · intro hcx
      refine (e c hc hcb).validChecksum (p.sums c hc fun hm => ?_)
      exact (hx c hm).elim hcx hcb

/-- Cutting a block in two. -/
theorem split {b m n : ℕ} (p : Physical h start end_ (l ++ b :: m :: r) x)
    (e : ∀ c ∈ l ++ r, SameHeader h h' c)
    (hb : b + h'.blocksize b = n) (hn : n + h'.blocksize n = m)
    (hsb : 48 ≤ h'.blocksize b) (hsn : 48 ≤ h'.blocksize n)
    (hab : h'.blocksize b % 16 = 0)
    (hpb : h'.prevblock b = h.prevblock b) (hpn : h'.prevblock n = b) (hpm : h'.prevblock m = n)
    (hsm : h'.blocksize m = h.blocksize m)
    (hv : ∀ c ∈ [b, n, m], h'.ValidChecksum c) :
    Physical h' start end_ (l ++ b :: n :: m :: r) x := by
  have hm := p.next_eq
  have hbb := p.bounds (b := b) (by simp)
  have el : ∀ c ∈ l, SameHeader h h' c := fun c hc => e c (by simp [hc])
  have er : ∀ c ∈ r, SameHeader h h' c := fun c hc => e c (by simp [hc])
  obtain ⟨bl, -, -, br⟩ := backLinked_append_cons.mp p.back
  have hpm' := p.prev_eq
  have hmb := p.bounds (b := m) (by simp)
  have hsize : ∀ c ∈ l ++ b :: n :: m :: r, 48 ≤ h'.blocksize c ∧ c % 16 = 0 ∧
      h'.blocksize c % 16 = 0 ∧ (c ∉ x → h'.ValidChecksum c) := by
    intro c hc
    simp only [List.mem_append, List.mem_cons] at hc
    rcases hc with hc | rfl | rfl | rfl | hc
    · exact p.keep (by simp [hc]) (el c hc)
    · exact ⟨hsb, hbb.1, hab, fun _ => hv c (by simp)⟩
    · exact ⟨hsn, by omega, by omega, fun _ => hv c (by simp)⟩
    · exact ⟨by omega, hmb.1, by omega, fun _ => hv c (by simp)⟩
    · exact p.keep (by simp [hc]) (er c hc)
  refine ⟨?_, ?_, ?_, fun c hc => (hsize c hc).1, fun c hc => ⟨(hsize c hc).2.1, (hsize c hc).2.2.1⟩,
    fun c hc => (hsize c hc).2.2.2, p.start_pos, p.limit⟩
  · refine p.tiles.split (k := h'.blocksize n) (by omega) (fun c hc => (el c hc).blocksize) ?_ hb rfl
    intro c hc
    rcases List.mem_cons.mp hc with rfl | hc
    · exact hsm
    · exact (er c hc).blocksize
  · rw [backLinked_append_cons]
    exact ⟨bl.congr fun c hc => (el c hc).prevblock, hpb.trans hpm', hpn, hpm,
      br.congr fun c hc => (er c hc).prevblock⟩
  · have hsplit : l ++ b :: m :: r = (l ++ [b]) ++ m :: r := by simp
    obtain ⟨t, ht⟩ := (hsplit ▸ p).last_of_append
    exact ⟨l ++ b :: n :: t, by simp [ht]⟩

/-- Adding a block to its left neighbour. -/
theorem merge {q b m : ℕ} (p : Physical h start end_ (l ++ q :: b :: m :: r) x)
    (e : ∀ c ∈ l ++ r, SameHeader h h' c)
    (hs : h'.blocksize q = h.blocksize q + h.blocksize b) (hpq : h'.prevblock q = h.prevblock q)
    (hpm : h'.prevblock m = q) (hsm : h'.blocksize m = h.blocksize m)
    (hx : ∀ c ∈ x, c ∈ x' ∨ c = q ∨ c = b) (hv : ∀ c ∈ [q, m], h'.ValidChecksum c) :
    Physical h' start end_ (l ++ q :: m :: r) x' := by
  have el : ∀ c ∈ l, SameHeader h h' c := fun c hc => e c (by simp [hc])
  have er : ∀ c ∈ r, SameHeader h h' c := fun c hc => e c (by simp [hc])
  have hqb := p.bounds (b := q) (by simp)
  have hbb := p.bounds (b := b) (by simp)
  have hmb := p.bounds (b := m) (by simp)
  obtain ⟨bl, hq, -, -, br⟩ := backLinked_append_cons.mp p.back
  have hstale : ∀ c ∈ l ++ m :: r, c ∉ x' → c ∉ x := by
    intro c hc hcx hm
    have hne := (p.ne_pair hc).2
    rcases hx c hm with h1 | h1 | h1
    · exact hcx h1
    · exact hne.1 h1
    · exact hne.2 h1
  have hsize : ∀ c ∈ l ++ q :: m :: r, 48 ≤ h'.blocksize c ∧ c % 16 = 0 ∧
      h'.blocksize c % 16 = 0 ∧ (c ∉ x' → h'.ValidChecksum c) := by
    intro c hc
    simp only [List.mem_append, List.mem_cons] at hc
    rcases hc with hc | rfl | rfl | hc
    · have hk := p.keep (by simp [hc]) (el c hc)
      exact ⟨hk.1, hk.2.1, hk.2.2.1, fun hcx => hk.2.2.2 (hstale c (by simp [hc]) hcx)⟩
    · exact ⟨by omega, hqb.1, by omega, fun _ => hv c (by simp)⟩
    · exact ⟨by omega, hmb.1, by omega, fun _ => hv c (by simp)⟩
    · have hk := p.keep (by simp [hc]) (er c hc)
      exact ⟨hk.1, hk.2.1, hk.2.2.1, fun hcx => hk.2.2.2 (hstale c (by simp [hc]) hcx)⟩
  refine ⟨?_, ?_, ?_, fun c hc => (hsize c hc).1, fun c hc => ⟨(hsize c hc).2.1, (hsize c hc).2.2.1⟩,
    fun c hc => (hsize c hc).2.2.2, p.start_pos, p.limit⟩
  · refine p.tiles.merge (fun c hc => (el c hc).blocksize) ?_ hs
    intro c hc
    rcases List.mem_cons.mp hc with rfl | hc
    · exact hsm
    · exact (er c hc).blocksize
  · rw [backLinked_append_cons]
    exact ⟨bl.congr fun c hc => (el c hc).prevblock, hpq.trans hq, hpm,
      br.congr fun c hc => (er c hc).prevblock⟩
  · have hsplit : l ++ q :: b :: m :: r = (l ++ [q, b]) ++ m :: r := by simp
    obtain ⟨t, ht⟩ := (hsplit ▸ p).last_of_append
    exact ⟨l ++ q :: t, by simp [ht]⟩

end Physical

/-! ## Free blocks are apart -/

namespace Apart

variable {h h' : Storeblocks} {l r bs : List ℕ}

theorem congr (a : Apart h bs) (e : ∀ b ∈ bs, h'.taskNumber b = h.taskNumber b) : Apart h' bs := by
  refine List.IsChain.imp_of_mem_imp ?_ a
  intro b c hb hc hbc
  simpa [Storeblocks.BlockIsFree, e b hb, e c hc] using hbc

theorem mono (a : Apart h bs) (e : ∀ b ∈ bs, h'.BlockIsFree b → h.BlockIsFree b) :
    Apart h' bs := by
  refine List.IsChain.imp_of_mem_imp ?_ a
  intro b c hb hc hbc hf
  exact hbc ⟨e b hb hf.1, e c hc hf.2⟩

theorem left (a : Apart h (l ++ r)) : Apart h l := List.IsChain.left_of_append a

theorem right (a : Apart h (l ++ r)) : Apart h r := List.IsChain.right_of_append a

/-- A block in use separates the two sides of a pool. -/
theorem append_cons_of_used {b : ℕ} (hb : ¬h.BlockIsFree b) (hl : Apart h l) (hr : Apart h r) :
    Apart h (l ++ b :: r) := by
  refine List.IsChain.append hl (List.IsChain.cons hr ?_) ?_
  · intro y _ hy
    exact hb hy.1
  · intro x _ y hy hxy
    simp only [List.head?_cons, Option.mem_some_iff] at hy
    exact hb (hy ▸ hxy.2)

theorem concat {b : ℕ} (hl : Apart h l) (hb : ∀ q ∈ l.getLast?, ¬h.BlockIsFree q) :
    Apart h (l ++ [b]) := by
  refine List.IsChain.append hl (List.isChain_singleton b) ?_
  intro x hx y _ hxy
  exact hb x hx hxy.1

/-- The right neighbour of a free block is in use. -/
theorem next_used {b m : ℕ} (a : Apart h (l ++ b :: m :: r)) (hb : h.BlockIsFree b) :
    ¬h.BlockIsFree m := by
  have := (List.isChain_cons_cons.mp a.right).1
  exact fun hm => this ⟨hb, hm⟩

/-- The left neighbour of a free block is in use. -/
theorem prev_used {b q : ℕ} (a : Apart h (l ++ q :: b :: r)) (hb : h.BlockIsFree b) :
    ¬h.BlockIsFree q := by
  have := (List.isChain_cons_cons.mp a.right).1
  exact fun hq => this ⟨hq, hb⟩

end Apart

/-! ## Reading the lists of a pool -/

section Update

variable {rl : ℕ → List ℕ} {limbo : List ℕ} {td b c : ℕ}

/-- The lists of all tasks when a block is put on one of them. -/
theorem mem_update_cons {t : ℕ} :
    c ∈ Function.update rl td (b :: rl td) t ↔ (c = b ∧ t = td) ∨ c ∈ rl t := by
  by_cases ht : t = td
  · subst ht
    simp
  · simp [ht]

theorem owned_update_cons : ((∃ t, c ∈ Function.update rl td (b :: rl td) t) ∨ c ∈ limbo) ↔
    c = b ∨ ((∃ t, c ∈ rl t) ∨ c ∈ limbo) := by
  simp only [mem_update_cons, exists_or]
  simp [or_assoc]

theorem nodup_update_cons {t : ℕ} (h : (rl t).Nodup) (hb : b ∉ rl t) :
    (Function.update rl td (b :: rl td) t).Nodup := by
  by_cases ht : t = td
  · subst ht
    simpa using ⟨hb, h⟩
  · simpa [ht] using h

end Update

namespace Layout

variable {s s' : Kernel} {mp : ℕ} {bs fl limbo stale : List ℕ} {rl : ℕ → List ℕ}

theorem mem_of_free (i : Layout s mp bs fl rl limbo stale) {b : ℕ} (hb : b ∈ fl) :
    b ∈ bs ∧ s.heap.BlockIsFree b ∧ b ≠ (s.pools mp).poolEndPtr := by
  obtain ⟨h1, h2⟩ := (i.mem_free b).mp hb
  refine ⟨h1, h2, ?_⟩
  rintro rfl
  exact i.end_used h2

/-- `NEXT_FREE` of a free block. -/
theorem nextFree_eq {f g : List ℕ} {b : ℕ} (i : Layout s mp bs (f ++ b :: g) rl limbo stale) :
    s.heap.nextblock b = g.headD 0 :=
  i.free.next_eq

/-- `PREV_FREE` of the next free block. -/
theorem prevFree_eq {f g : List ℕ} {b n : ℕ}
    (i : Layout s mp bs (f ++ b :: n :: g) rl limbo stale) : s.heap.userArea n = b :=
  (backLinked_append_cons.mp i.free.back).2.2.1

theorem of_res (i : Layout s mp bs fl rl limbo stale) {b t : ℕ} (hb : b ∈ rl t) :
    b ∈ bs ∧ b ≠ (s.pools mp).poolEndPtr ∧ ¬s.heap.BlockIsFree b :=
  (i.owned b).mp (Or.inl ⟨t, hb⟩)

theorem of_limbo (i : Layout s mp bs fl rl limbo stale) {b : ℕ} (hb : b ∈ limbo) :
    b ∈ bs ∧ b ≠ (s.pools mp).poolEndPtr ∧ ¬s.heap.BlockIsFree b :=
  (i.owned b).mp (Or.inr hb)

theorem notMem_res (i : Layout s mp bs fl rl limbo stale) {b : ℕ} (hb : s.heap.BlockIsFree b) (t : ℕ) :
    b ∉ rl t :=
  fun hm => (i.of_res hm).2.2 hb

theorem notMem_limbo (i : Layout s mp bs fl rl limbo stale) {b : ℕ} (hb : s.heap.BlockIsFree b) :
    b ∉ limbo :=
  fun hm => (i.of_limbo hm).2.2 hb

theorem sum_of_free (i : Layout s mp bs fl rl limbo stale) {b : ℕ} (hb : b ∈ fl) :
    s.heap.ValidChecksum b := by
  obtain ⟨hbs, hfree, -⟩ := i.mem_of_free hb
  exact i.phys.sums b hbs fun hm => i.notMem_limbo hfree (i.stale_limbo b hm)

theorem notMem_free (i : Layout s mp bs fl rl limbo stale) {b : ℕ} (hb : ¬s.heap.BlockIsFree b) :
    b ∉ fl :=
  fun hm => hb (i.mem_of_free hm).2.1

/-- Blocks on resource lists are addressed without overflow. -/
theorem res_bounds (i : Layout s mp bs fl rl limbo stale) (t : ℕ) : ∀ b ∈ rl t, b + 48 < 2 ^ 32 := by
  intro b hb
  have := i.phys.bounds (i.of_res hb).1
  omega

/-- A resource list survives stores that miss its `NEXTBLOCK` links. -/
theorem res_congr (i : Layout s mp bs fl rl limbo stale) {h : Storeblocks} {t : ℕ}
    (e : ∀ b ∈ rl t, h.nextblock b = s.heap.nextblock b) :
    ResourceList h (s.memoryResourceList t) (rl t) :=
  (i.res t).congr (i.res_bounds t) e

/-- Two states with the same lists, and with the same headers and links on them. -/
theorem of_agree (i : Layout s mp bs fl rl limbo stale)
    (hhdr : ∀ c ∈ bs, SameHeader s.heap s'.heap c) (hfree : (s'.freeList mp).Represents 0 fl)
    (hnext : ∀ t, ∀ c ∈ rl t, s'.heap.nextblock c = s.heap.nextblock c)
    (hpool : ∀ c ∈ bs, s'.heap.memPoolPtr c = s.heap.memPoolPtr c)
    (hres : s'.memoryResourceList = s.memoryResourceList)
    (hptr : (s'.pools mp).poolPtr = (s.pools mp).poolPtr)
    (hend : (s'.pools mp).poolEndPtr = (s.pools mp).poolEndPtr) :
    Layout s' mp bs fl rl limbo stale := by
  have hbf : ∀ c ∈ bs, s'.heap.BlockIsFree c ↔ s.heap.BlockIsFree c := by
    intro c hc
    simp only [Storeblocks.BlockIsFree, (hhdr c hc).taskNumber]
  constructor
  · rw [hptr, hend]
    exact i.phys.congr hhdr
  · exact hfree
  · intro c
    rw [i.mem_free]
    exact and_congr_right fun hc => (hbf c hc).symm
  · rw [hend, hbf _ i.phys.end_mem]
    exact i.end_used
  · intro t
    rw [hres]
    exact i.res_congr (hnext t)
  · exact i.res_nodup
  · intro t c hc
    rw [(hhdr c (i.of_res hc).1).taskNumber]
    exact i.res_task t c hc
  · exact i.limbo_nodup
  · exact i.limbo_notMem
  · exact i.stale_limbo
  · intro c
    rw [i.owned, hend]
    exact and_congr_right fun hc => and_congr_right fun _ => not_congr (hbf c hc).symm
  · intro c hc
    rw [hpool c ((i.owned c).mp hc).1]
    exact i.pool c hc

/-- Search and error pointers of the pool do not matter. -/
theorem congr (i : Layout s mp bs fl rl limbo stale) (hheap : s'.heap = s.heap)
    (hres : s'.memoryResourceList = s.memoryResourceList)
    (hptr : (s'.pools mp).poolPtr = (s.pools mp).poolPtr)
    (hend : (s'.pools mp).poolEndPtr = (s.pools mp).poolEndPtr)
    (hfree : (s'.pools mp).poolFreeListPtr = (s.pools mp).poolFreeListPtr) :
    Layout s' mp bs fl rl limbo stale := by
  apply i.of_agree
  · intro c _
    rw [hheap]
    exact ⟨rfl, rfl, rfl, rfl, rfl⟩
  · simp only [Kernel.freeList, hheap, hfree]
    exact i.free
  · simp [hheap]
  · simp [hheap]
  · exact hres
  · exact hptr
  · exact hend

end Layout

theorem PoolInv.congr {s s' : Kernel} {mp : ℕ} {bs fl limbo stale : List ℕ} {rl : ℕ → List ℕ}
    (i : PoolInv s mp bs fl rl limbo stale) (hheap : s'.heap = s.heap)
    (hres : s'.memoryResourceList = s.memoryResourceList)
    (hptr : (s'.pools mp).poolPtr = (s.pools mp).poolPtr)
    (hend : (s'.pools mp).poolEndPtr = (s.pools mp).poolEndPtr)
    (hfree : (s'.pools mp).poolFreeListPtr = (s.pools mp).poolFreeListPtr) :
    PoolInv s' mp bs fl rl limbo stale :=
  ⟨i.toLayout.congr hheap hres hptr hend hfree, by rw [hheap]; exact i.apart⟩

end Mqx.Mem
