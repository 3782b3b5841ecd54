import Mqx.Mem.Calls

/-!
# Interleaved allocations and releases

Any number of tasks allocate from and release to one pool. A task can be preempted
in the windows of the search loop of `_mem_alloc_internal` and of the insertion loop
of `_mem_free`; between two windows it runs alone.

What a task keeps across a window is one block pointer. It is trusted only while the
cursor of its loop in the pool still equals it, and the cursors are shared by all
tasks. The invariant is that a cursor which some task may trust is 0 or on the free
list.
-/

namespace Mqx.Mem

open PointerList

/-- What a task is doing: nothing, waiting in the window of an allocation or in the
window of a release, with the local variables it goes on with. -/
inductive Thread
  | idle
  | allocating (requestedSize td blockPtr : ℕ)
  | freeing (block next : ℕ)
  deriving DecidableEq

def Thread.IsAllocating : Thread → Prop
  | .allocating _ _ _ => True
  | _ => False

def Thread.IsFreeing : Thread → Prop
  | .freeing _ _ => True
  | _ => False

instance : DecidablePred Thread.IsFreeing
  | .idle => isFalse id
  | .allocating _ _ _ => isFalse id
  | .freeing _ _ => isTrue trivial

/-- The kernel and the tasks that use the pool. -/
structure System where
  kernel : Kernel
  threads : ℕ → Thread

/-- A task starts a call, or goes on from its window. -/
inductive Event
  | beginAlloc (t size td : ℕ)
  | beginFree (t active memPtr : ℕ)
  | resume (t : ℕ)
  deriving DecidableEq

namespace System

/-- What a task waits for after a stretch of an allocation. -/
def afterAlloc (requestedSize td : ℕ) : Progress AllocResult → Thread
  | .window ptr => .allocating requestedSize td ptr
  | .returned _ => .idle

/-- What a task waits for after a stretch of a release. -/
def afterFree (block : ℕ) : Progress MqxCode → Thread
  | .window ptr => .freeing block ptr
  | .returned _ => .idle

/-- One task runs from a window, or from the start of a call, to its next window or to
the end of the call. The loop pointers it has dereferenced come with the new state. -/
def step (mp : ℕ) (σ : System) : Event → Option (System × List ℕ)
  | .beginAlloc t size td =>
    match σ.threads t with
    | .idle =>
      let r := memAllocBegin σ.kernel mp
      some (⟨r.kernel, Function.update σ.threads t (afterAlloc (adjustSize size) td r.progress)⟩,
        r.reads)
    | _ => none
  | .beginFree t active memPtr =>
    match σ.threads t with
    | .idle => (memFreeBegin σ.kernel active memPtr).map fun r =>
        (⟨r.kernel, Function.update σ.threads t (afterFree (getMemblockPtr memPtr) r.progress)⟩,
          r.reads)
    | _ => none
  | .resume t =>
    match σ.threads t with
    | .idle => none
    | .allocating req td ptr =>
      let r := memAllocResume σ.kernel req td mp ptr
      some (⟨r.kernel, Function.update σ.threads t (afterAlloc req td r.progress)⟩, r.reads)
    | .freeing b next =>
      let r := memFreeResume σ.kernel mp b next
      some (⟨r.kernel, Function.update σ.threads t (afterFree b r.progress)⟩, r.reads)

/-- A task starts a call when it is idle and goes on with a call otherwise. -/
def Enabled (σ : System) : Event → Prop
  | .beginAlloc t _ _ => σ.threads t = .idle
  | .beginFree t _ _ => σ.threads t = .idle
  | .resume t => σ.threads t ≠ .idle

/-- A task that goes on with a release finds a free list that is not empty, and the
adjustment of an allocated size does not overflow. -/
def Meets (mp : ℕ) (σ : System) : Event → Prop
  | .beginAlloc _ size td => adjustSize size ≠ 0 ∧ td ≠ 0
  | .beginFree _ _ _ => True
  | .resume t => (σ.threads t).IsFreeing → (σ.kernel.pools mp).poolFreeListPtr ≠ 0

instance (mp : ℕ) (σ : System) : DecidablePred (σ.Meets mp)
  | .beginAlloc _ _ _ => inferInstanceAs (Decidable (_ ∧ _))
  | .beginFree _ _ _ => isTrue trivial
  | .resume _ => inferInstanceAs (Decidable (_ → _))

end System

/-- The local variables of the tasks: `limbo` lists the blocks that are being released,
each by one task, and the requested sizes are adjusted. -/
structure Locals (threads : ℕ → Thread) (limbo : List ℕ) : Prop where
  limbo : ∀ b, b ∈ limbo ↔ ∃ t next, threads t = .freeing b next
  unique : ∀ t t' b next next', threads t = .freeing b next → threads t' = .freeing b next' → t = t'
  request : ∀ t req td ptr, threads t = .allocating req td ptr → 48 ≤ req ∧ req % 16 = 0 ∧ td ≠ 0
  next_ne : ∀ t b next, threads t = .freeing b next → next ≠ 0

namespace Locals

variable {threads : ℕ → Thread} {limbo : List ℕ} {t b n : ℕ}

/-- A task that releases nothing goes on to something else than a release. -/
theorem keep (h : Locals threads limbo) {th : Thread} (hold : ∀ b n, threads t ≠ .freeing b n)
    (hnew : ∀ b n, th ≠ .freeing b n)
    (hreq : ∀ req td ptr, th = .allocating req td ptr → 48 ≤ req ∧ req % 16 = 0 ∧ td ≠ 0) :
    Locals (Function.update threads t th) limbo := by
  have hfree : ∀ t' b n, Function.update threads t th t' = .freeing b n ↔
      threads t' = .freeing b n := by
    intro t' b n
    by_cases ht : t' = t
    · subst ht
      simp [hold, hnew]
    · simp [ht]
  refine ⟨?_, ?_, ?_, ?_⟩
  · simpa only [hfree] using h.limbo
  · simpa only [hfree] using h.unique
  · intro t' req td ptr ht'
    by_cases ht : t' = t
    · subst ht
      exact hreq req td ptr (by simpa using ht')
    · exact h.request t' req td ptr (by simpa [ht] using ht')
  · simpa only [hfree] using h.next_ne

/-- A task starts or goes on with the release of `b`. -/
theorem hold (h : Locals threads limbo) {limbo' : List ℕ} (hn : n ≠ 0)
    (hb : ∀ t' m, threads t' = .freeing b m → t' = t)
    (ht : ∀ c m, threads t = .freeing c m → c = b)
    (hl : ∀ c, c ∈ limbo' ↔ c = b ∨ c ∈ limbo) :
    Locals (Function.update threads t (.freeing b n)) limbo' := by
  refine ⟨?_, ?_, ?_, ?_⟩
  · intro c
    rw [hl, h.limbo]
    constructor
    · rintro (rfl | ⟨t', m, ht'⟩)
      · exact ⟨t, n, by simp⟩
      · by_cases htt : t' = t
        · subst htt
          exact ⟨t', n, by simp [ht c m ht']⟩
        · exact ⟨t', m, by simpa [htt] using ht'⟩
    · rintro ⟨t', m, ht'⟩
      by_cases htt : t' = t
      · subst htt
        simp only [Function.update_self, Thread.freeing.injEq] at ht'
        exact Or.inl ht'.1.symm
      · exact Or.inr ⟨t', m, by simpa [htt] using ht'⟩
  · intro t1 t2 c m1 m2 h1 h2
    by_cases ht1 : t1 = t
    · by_cases ht2 : t2 = t
      · rw [ht1, ht2]
      · subst ht1
        simp only [Function.update_self, Thread.freeing.injEq] at h1
        rw [Function.update_of_ne ht2, ← h1.1] at h2
        exact absurd (hb t2 m2 h2) ht2
    · by_cases ht2 : t2 = t
      · subst ht2
        simp only [Function.update_self, Thread.freeing.injEq] at h2
        rw [Function.update_of_ne ht1, ← h2.1] at h1
        exact absurd (hb t1 m1 h1) ht1
      · exact h.unique t1 t2 c m1 m2 (by simpa [ht1] using h1) (by simpa [ht2] using h2)
  · intro t' req td ptr ht'
    by_cases htt : t' = t
    · simp [htt] at ht'
    · exact h.request t' req td ptr (by simpa [htt] using ht')
  · intro t' c m ht'
    by_cases htt : t' = t
    · subst htt
      simp only [Function.update_self, Thread.freeing.injEq] at ht'
      exact ht'.2 ▸ hn
    · exact h.next_ne t' c m (by simpa [htt] using ht')

/-- A task has released its block. -/
theorem release (h : Locals threads limbo) (hd : limbo.Nodup) (ht : threads t = .freeing b n) :
    Locals (Function.update threads t .idle) (limbo.erase b) := by
  have hfree : ∀ t' c m, Function.update threads t .idle t' = .freeing c m ↔
      threads t' = .freeing c m ∧ t' ≠ t := by
    intro t' c m
    by_cases htt : t' = t
    · simp [htt]
    · simp [htt]
  refine ⟨?_, ?_, ?_, ?_⟩
  · intro c
    rw [hd.mem_erase_iff, h.limbo]
    simp only [hfree]
    constructor
    · rintro ⟨hcb, t', m, ht'⟩
      refine ⟨t', m, ht', ?_⟩
      rintro rfl
      rw [ht, Thread.freeing.injEq] at ht'
      exact hcb ht'.1.symm
    · rintro ⟨t', m, ht', hne⟩
      refine ⟨?_, t', m, ht'⟩
      rintro rfl
      exact hne (h.unique t' t c m n ht' ht)
  · intro t1 t2 c m1 m2 h1 h2
    exact h.unique t1 t2 c m1 m2 ((hfree _ _ _).mp h1).1 ((hfree _ _ _).mp h2).1
  · intro t' req td ptr ht'
    by_cases htt : t' = t
    · simp [htt] at ht'
    · exact h.request t' req td ptr (by simpa [htt] using ht')
  · intro t' c m ht'
    exact h.next_ne t' c m ((hfree _ _ _).mp ht').1

end Locals

/-- The part of the invariant that holds in the middle of a release, too. -/
structure ReleaseInv (mp : ℕ) (σ : System) (bs fl : List ℕ) (rl : ℕ → List ℕ) (limbo : List ℕ) :
    Prop where
  pool : PoolInv σ.kernel mp bs fl rl limbo []
  types : ∀ b, ((∃ t, b ∈ rl t) ∨ b ∈ limbo) → σ.kernel.heap.memType b = 0
  locals : Locals σ.threads limbo
  allocCursor : (∃ t, (σ.threads t).IsAllocating) →
    (σ.kernel.pools mp).poolAllocCurrentBlock = 0 ∨ (σ.kernel.pools mp).poolAllocCurrentBlock ∈ fl

/-- The invariant of the interleaved system. -/
structure SystemInv (mp : ℕ) (σ : System) (bs fl : List ℕ) (rl : ℕ → List ℕ) (limbo : List ℕ) :
    Prop extends ReleaseInv mp σ bs fl rl limbo where
  freeCursor : (∃ t, (σ.threads t).IsFreeing) →
    (σ.kernel.pools mp).poolFreeCurrentBlock = 0 ∨ (σ.kernel.pools mp).poolFreeCurrentBlock ∈ fl

theorem exists_of_update {threads : ℕ → Thread} {t : ℕ} {th : Thread} {P : Thread → Prop}
    (h : ∃ t', P (Function.update threads t th t')) (hth : ¬P th) : ∃ t', P (threads t') := by
  obtain ⟨t', ht'⟩ := h
  by_cases htt : t' = t
  · subst htt
    exact absurd (by simpa using ht') hth
  · exact ⟨t', by simpa [htt] using ht'⟩

namespace PoolInv

variable {s : Kernel} {mp : ℕ} {bs fl limbo stale : List ℕ} {rl : ℕ → List ℕ}

theorem head_zero_or_mem (i : PoolInv s mp bs fl rl limbo stale) :
    (s.pools mp).poolFreeListPtr = 0 ∨ (s.pools mp).poolFreeListPtr ∈ fl := by
  by_cases h0 : (s.pools mp).poolFreeListPtr = 0
  · exact Or.inl h0
  · exact Or.inr (i.free.linked.head_mem h0)

theorem next_zero_or_mem (i : PoolInv s mp bs fl rl limbo stale) {b : ℕ} (hb : b ∈ fl) :
    s.heap.nextblock b = 0 ∨ s.heap.nextblock b ∈ fl :=
  (i.free.linked.next_mem hb).symm

end PoolInv

namespace SystemInv

variable {mp t b : ℕ} {σ : System} {bs fl limbo : List ℕ} {rl : ℕ → List ℕ}

/-! ## Allocation -/

/-- A task saves its loop pointer and waits in the window of the search. -/
theorem memAllocWindow (i : SystemInv mp σ bs fl rl limbo) {req td ptr : ℕ} {reads : List ℕ}
    (ht : ∀ b n, σ.threads t ≠ .freeing b n) (hreq : 48 ≤ req ∧ req % 16 = 0 ∧ td ≠ 0)
    (hptr : ptr = 0 ∨ ptr ∈ fl) :
    SystemInv mp ⟨(memAllocWindow σ.kernel mp ptr reads).kernel,
      Function.update σ.threads t (.allocating req td ptr)⟩ bs fl rl limbo := by
  refine ⟨⟨i.pool.setPool rfl rfl rfl, i.types, i.locals.keep ht (by simp) ?_, ?_⟩, ?_⟩
  · rintro req' td' ptr' he
    obtain ⟨rfl, rfl, -⟩ := Thread.allocating.inj he
    exact hreq
  · intro _
    simpa [Mem.memAllocWindow, Kernel.setPool] using hptr
  · intro hf
    simpa [Mem.memAllocWindow, Kernel.setPool] using i.freeCursor (exists_of_update hf (by
      simp [Thread.IsFreeing]))

/-- A task finishes its allocation. -/
theorem allocBlock {f g : List ℕ} (i : SystemInv mp σ bs (f ++ b :: g) rl limbo)
    {req td ptr : ℕ} (ht : σ.threads t = .allocating req td ptr)
    (hle : req ≤ σ.kernel.heap.blocksize b) :
    ∃ bs' fl', SystemInv mp ⟨σ.kernel.allocBlock td mp b req, Function.update σ.threads t .idle⟩
      bs' fl' (Function.update rl td (b :: rl td)) limbo := by
  obtain ⟨hreq, hal, htd⟩ := i.locals.request t req td ptr ht
  obtain ⟨bs', rest, -, hinv⟩ := i.pool.allocBlock htd hreq hal hle
  obtain ⟨hac, hfc⟩ := allocBlock_pool σ.kernel td mp b req
  refine ⟨bs', f ++ rest ++ g, ⟨hinv, ?_, ?_, ?_⟩, ?_⟩
  · intro c hc
    have htype : (σ.kernel.allocBlock td mp b req).heap.memType =
        Function.update σ.kernel.heap.memType b 0 := by
      rcases allocBlock_cases σ.kernel td mp b req with ⟨-, he⟩ | ⟨-, he⟩
      · rw [he, Kernel.takeBlock_heap]
        rfl
      · rw [he, Kernel.takeBlock_heap]
    rw [htype]
    rcases owned_update_cons.mp hc with rfl | ho
    · simp
    · by_cases hcb : c = b
      · simp [hcb]
      · simpa [hcb] using i.types c ho
  · exact i.locals.keep (by simp [ht]) (by simp) (by simp)
  · intro _
    rw [hac]
    exact hinv.head_zero_or_mem
  · intro hf
    rw [hfc]
    split_ifs with hb
    · exact hinv.head_zero_or_mem
    · refine (i.freeCursor (exists_of_update hf (by simp [Thread.IsFreeing]))).imp_right ?_
      intro hm
      simp only [List.mem_append, List.mem_cons] at hm ⊢
      tauto

/-- One turn of the search. -/
theorem memAllocResume (i : SystemInv mp σ bs fl rl limbo) {req td ptr : ℕ}
    (ht : σ.threads t = .allocating req td ptr) :
    (∃ bs' fl' rl', SystemInv mp ⟨(memAllocResume σ.kernel req td mp ptr).kernel,
      Function.update σ.threads t
        (System.afterAlloc req td (memAllocResume σ.kernel req td mp ptr).progress)⟩
      bs' fl' rl' limbo) ∧
    ∀ p ∈ (memAllocResume σ.kernel req td mp ptr).reads, p ∈ fl := by
  have hreq := i.locals.request t req td ptr ht
  have hnf : ∀ b n, σ.threads t ≠ .freeing b n := by simp [ht]
  have hsearch : PoolInv.searchPtr σ.kernel mp ptr = 0 ∨ PoolInv.searchPtr σ.kernel mp ptr ∈ fl := by
    unfold PoolInv.searchPtr
    split_ifs with hc
    · exact i.pool.head_zero_or_mem
    · rw [← not_not.mp hc]
      exact i.allocCursor ⟨t, by simp [ht, Thread.IsAllocating]⟩
  rcases i.pool.memAllocResume_cases req td ptr hsearch with
    ⟨-, he⟩ | ⟨hmem, hle, he⟩ | ⟨hmem, -, he⟩
  · rw [he]
    refine ⟨⟨bs, fl, rl, ⟨i.pool.setPool rfl rfl rfl, i.types, ?_, ?_⟩, ?_⟩, by simp [allocReturn]⟩
    · exact i.locals.keep hnf (by simp [System.afterAlloc, allocReturn])
        (by simp [System.afterAlloc, allocReturn])
    · intro ha
      simpa [allocReturn, Kernel.setPool] using i.allocCursor ⟨t, by simp [ht, Thread.IsAllocating]⟩
    · intro hf
      simpa [allocReturn, Kernel.setPool] using i.freeCursor (exists_of_update hf (by
        simp [Thread.IsFreeing, System.afterAlloc, allocReturn]))
  · rw [he]
    generalize PoolInv.searchPtr σ.kernel mp ptr = b at *
    obtain ⟨f, g, rfl⟩ := List.append_of_mem hmem
    obtain ⟨bs', fl', hinv⟩ := i.allocBlock ht hle
    exact ⟨⟨bs', fl', _, hinv⟩, by simp [allocReturn]⟩
  · rw [he]
    refine ⟨⟨bs, fl, rl, i.memAllocWindow hnf hreq (i.pool.next_zero_or_mem hmem)⟩, ?_⟩
    simpa [Mem.memAllocWindow] using hmem

end SystemInv

/-! ## Release -/

namespace ReleaseInv

variable {mp t b : ℕ} {σ : System} {bs f g fl limbo : List ℕ} {rl : ℕ → List ℕ}

theorem types_erase (i : ReleaseInv mp σ bs fl rl limbo) :
    ∀ c, ((∃ t, c ∈ rl t) ∨ c ∈ limbo.erase b) → σ.kernel.heap.memType c = 0 := fun c hc =>
  i.types c (hc.imp_right List.mem_of_mem_erase)

/-- The block has been coalesced with a free neighbour. -/
theorem coalesced (i : ReleaseInv mp σ bs fl rl limbo) {n : ℕ} (ht : σ.threads t = .freeing b n)
    {s' : Kernel} {fl' : List ℕ} (h : Coalesced σ.kernel s' mp fl rl (limbo.erase b) [] fl') :
    ∃ bs', SystemInv mp ⟨s', Function.update σ.threads t .idle⟩ bs' fl' rl (limbo.erase b) := by
  obtain ⟨bs', hinv⟩ := h.inv
  refine ⟨bs', ⟨hinv, ?_, i.locals.release i.pool.limbo_nodup ht, ?_⟩, ?_⟩
  · rw [h.memType]
    exact i.types_erase
  · intro ha
    exact h.allocCursor (i.allocCursor (exists_of_update ha (by simp [Thread.IsAllocating])))
  · intro _
    rw [h.freeCursor]
    exact hinv.head_zero_or_mem

/-- The block has been put on the free list. -/
theorem inserted (i : ReleaseInv mp σ bs fl rl limbo) {n : ℕ} (ht : σ.threads t = .freeing b n)
    {s' : Kernel} {fl' : List ℕ} (h : Inserted σ.kernel s' mp b fl rl (limbo.erase b) [] fl') :
    ∃ bs', SystemInv mp ⟨s', Function.update σ.threads t .idle⟩ bs' fl' rl (limbo.erase b) := by
  obtain ⟨bs', hinv⟩ := h.inv
  refine ⟨bs', ⟨hinv, ?_, i.locals.release i.pool.limbo_nodup ht, ?_⟩, ?_⟩
  · rw [h.memType]
    exact i.types_erase
  · intro ha
    rw [h.allocCursor]
    exact (i.allocCursor (exists_of_update ha (by simp [Thread.IsAllocating]))).imp_right
      fun hm => (h.mem _).mpr (Or.inr hm)
  · intro _
    rw [h.freeCursor]
    exact hinv.head_zero_or_mem

theorem mem_limbo (i : ReleaseInv mp σ bs fl rl limbo) {n : ℕ} (ht : σ.threads t = .freeing b n) :
    b ∈ limbo :=
  (i.locals.limbo b).mpr ⟨t, n, ht⟩

/-- One turn of the insertion loop, from a free block. -/
theorem memFreeLoop (i : ReleaseInv mp σ bs fl rl limbo) {n : ℕ} (next : ℕ)
    (ht : σ.threads t = .freeing b n) (hn : NoFreeNeighbour σ.kernel b) (hnext : next ∈ fl) :
    (∃ bs' fl' rl' limbo', SystemInv mp ⟨(memFreeLoop σ.kernel mp b next).kernel,
      Function.update σ.threads t
        (System.afterFree b (memFreeLoop σ.kernel mp b next).progress)⟩ bs' fl' rl' limbo') ∧
    ∀ p ∈ (memFreeLoop σ.kernel mp b next).reads, p ∈ fl := by
  have hb := i.mem_limbo ht
  obtain ⟨f, g, rfl⟩ := List.append_of_mem hnext
  rcases i.pool.memFreeLoop_cases hb hn with ⟨m, g', hlt, rfl, he⟩ | ⟨reads, -, hreads, he, hins⟩
  · rw [he]
    have hm : m ∈ f ++ next :: m :: g' := by simp
    have hm0 : m ≠ 0 := by
      rintro rfl
      exact i.pool.free.null_notMem hm
    refine ⟨⟨bs, _, rl, limbo, ⟨i.pool.setPool rfl rfl rfl, i.types, ?_, ?_⟩, ?_⟩, ?_⟩
    · refine i.locals.hold hm0 ?_ ?_ ?_
      · intro t' m' ht'
        exact i.locals.unique t' t b m' n ht' ht
      · intro c m' ht'
        rw [ht, Thread.freeing.injEq] at ht'
        exact ht'.1.symm
      · intro c
        refine ⟨Or.inr, ?_⟩
        rintro (rfl | hc)
        · exact hb
        · exact hc
    · intro ha
      simpa [Kernel.setPool] using i.allocCursor (exists_of_update ha (by
        simp [Thread.IsAllocating, System.afterFree]))
    · intro _
      right
      simp [Kernel.setPool]
    · simp
  · rw [he]
    obtain ⟨bs', hinv⟩ := i.inserted ht (by simpa using hins)
    refine ⟨⟨bs', _, rl, _, hinv⟩, ?_⟩
    intro p hp
    rw [hreads p hp]
    exact hnext

end ReleaseInv

namespace SystemInv

variable {mp t b : ℕ} {σ : System} {bs f g fl limbo : List ℕ} {rl : ℕ → List ℕ}

/-- A task goes on with a release while the free list is not empty. -/
theorem memFreeResume (i : SystemInv mp σ bs fl rl limbo) {next : ℕ}
    (ht : σ.threads t = .freeing b next) (h0 : (σ.kernel.pools mp).poolFreeListPtr ≠ 0) :
    (∃ bs' fl' rl' limbo', SystemInv mp ⟨(memFreeResume σ.kernel mp b next).kernel,
      Function.update σ.threads t
        (System.afterFree b (memFreeResume σ.kernel mp b next).progress)⟩ bs' fl' rl' limbo') ∧
    ∀ p ∈ (memFreeResume σ.kernel mp b next).reads, p ∈ fl := by
  have hb := i.mem_limbo ht
  rcases i.pool.memFreeResume_cases hb next with ⟨-, s', fl', he, hc⟩ | ⟨hn, he⟩
  · rw [he]
    obtain ⟨bs', hinv⟩ := i.coalesced ht (by simpa using hc)
    exact ⟨⟨bs', fl', rl, _, hinv⟩, by simp⟩
  · rw [he]
    refine i.memFreeLoop _ ht hn ?_
    unfold PoolInv.insertPtr
    split_ifs with hcur
    · exact i.pool.head_zero_or_mem.resolve_left h0
    · rw [← not_not.mp hcur]
      refine (i.freeCursor ⟨t, by simp [ht, Thread.IsFreeing]⟩).resolve_left ?_
      rw [not_not.mp hcur]
      exact i.locals.next_ne t b next ht

/-- A task starts a release. -/
theorem memFreeBegin (i : SystemInv mp σ bs fl rl limbo) (ht : σ.threads t = .idle)
    (active memPtr : ℕ) : ∃ r, memFreeBegin σ.kernel active memPtr = some r ∧
    (∃ bs' fl' rl' limbo', SystemInv mp ⟨r.kernel, Function.update σ.threads t
        (System.afterFree (getMemblockPtr memPtr) r.progress)⟩ bs' fl' rl' limbo') ∧
    ∀ p ∈ r.reads, p ∈ fl := by
  rcases i.pool.memFreeBegin_cases active memPtr with ⟨code, -, he⟩ |
    ⟨b, td, l, r, -, hlr, hmem, hget, he⟩
  · refine ⟨_, he, ⟨bs, fl, rl, limbo, ?_⟩, by simp⟩
    have hsame : Function.update σ.threads t .idle = σ.threads := by
      rw [← ht, Function.update_eq_self]
    simpa [System.afterFree, hsame] using i
  · refine ⟨_, he, ?_⟩
    have hbr : b ∈ rl td := by simp [hlr]
    have hbl : b ∉ limbo := fun h => i.pool.limbo_notMem b h td hbr
    obtain ⟨s1, hs1⟩ : ∃ s1, s1 = σ.kernel.setResourceLink td l.getLast?
        (σ.kernel.heap.nextblock b) := ⟨_, rfl⟩
    have htype1 : s1.heap.memType = σ.kernel.heap.memType := by
      rw [hs1]
      cases l.getLast? <;> rfl
    have hpools1 : s1.pools = σ.kernel.pools := by
      rw [hs1]
      cases l.getLast? <;> rfl
    -- the type of the block is 0 already, so its checksum stays valid
    have hreset : s1.resetType b = s1 := by
      have h0 : Function.update s1.heap.memType b 0 = s1.heap.memType := by
        rw [Function.update_eq_self_iff, htype1]
        exact (i.types b (Or.inl ⟨td, hbr⟩)).symm
      simp [Kernel.resetType, h0]
    have hpool1 : PoolInv s1 mp bs fl (Function.update rl td (l ++ r)) (b :: limbo) [] := by
      refine ⟨hs1 ▸ i.pool.toLayout.setResourceLink hlr, i.pool.apart.congr fun c _ => ?_⟩
      rw [hs1]
      cases l.getLast? <;> rfl
    have hbase : ReleaseInv mp ⟨s1, Function.update σ.threads t (.freeing b 1)⟩ bs fl
        (Function.update rl td (l ++ r)) (b :: limbo) := by
      refine ⟨hpool1, ?_, ?_, ?_⟩
      · intro c hc
        rw [htype1]
        refine i.types c ?_
        rcases hc with ⟨t', ht'⟩ | hc
        · left
          by_cases htt : t' = td
          · subst htt
            refine ⟨t', ?_⟩
            simp only [Function.update_self] at ht'
            rw [hlr]
            simp only [List.mem_append, List.mem_cons] at ht' ⊢
            exact ht'.imp_right Or.inr
          · exact ⟨t', by simpa [htt] using ht'⟩
        · rcases List.mem_cons.mp hc with rfl | hc
          · exact Or.inl ⟨td, hbr⟩
          · exact Or.inr hc
      · refine i.locals.hold (by decide) ?_ ?_ (by simp)
        · intro t' m ht'
          exact absurd ((i.locals.limbo b).mpr ⟨t', m, ht'⟩) hbl
        · intro c m ht'
          rw [ht] at ht'
          simp at ht'
      · intro ha
        rw [hpools1]
        exact i.allocCursor (exists_of_update ha (by simp [Thread.IsAllocating]))
    have hthread : Function.update σ.threads t (.freeing b 1) t = .freeing b 1 := by simp
    rw [← hs1, hget]
    rcases PoolInv.memFreeUnowned_cases (s := s1) (hreset.symm ▸ hpool1) (by simp) with
      ⟨-, s', fl', hun, hc⟩ | ⟨-, rfl, s', hun, hins⟩ | ⟨hn, next, g, rfl, hun⟩
    · rw [hun]
      rw [hreset] at hc
      obtain ⟨bs', hinv⟩ := hbase.coalesced hthread (by simpa using hc)
      exact ⟨⟨bs', fl', _, _, by simpa [System.afterFree] using hinv⟩, by simp⟩
    · rw [hun]
      rw [hreset] at hins
      obtain ⟨bs', hinv⟩ := hbase.inserted hthread (by simpa using hins)
      exact ⟨⟨bs', _, _, _, by simpa [System.afterFree] using hinv⟩, by simp⟩
    · rw [hun, hreset]
      rw [hreset] at hn
      have hloop := hbase.memFreeLoop next hthread hn (by simp)
      simpa using hloop

/-- Every step from a state of the invariant is defined when its task is ready for it, and
leads to a state of the invariant. -/
theorem step (i : SystemInv mp σ bs fl rl limbo) {e : Event} {σ' : System} {reads : List ℕ}
    (hm : σ.Meets mp e) (he : σ.step mp e = some (σ', reads)) :
    (∃ bs' fl' rl' limbo', SystemInv mp σ' bs' fl' rl' limbo') ∧ ∀ p ∈ reads, p ∈ fl := by
  cases e with
  | beginAlloc t size td =>
    cases ht : σ.threads t with
    | idle =>
      simp only [System.step, ht, Option.some.injEq, Prod.mk.injEq] at he
      obtain ⟨rfl, rfl⟩ := he
      obtain ⟨h48, hal⟩ := adjustSize_spec hm.1
      exact ⟨⟨bs, fl, rl, limbo, i.memAllocWindow (by simp [ht]) ⟨h48, hal, hm.2⟩
        i.pool.head_zero_or_mem⟩, by simp [memAllocBegin, Mem.memAllocWindow]⟩
    | allocating => simp [System.step, ht] at he
    | freeing => simp [System.step, ht] at he
  | beginFree t active memPtr =>
    cases ht : σ.threads t with
    | idle =>
      obtain ⟨r, hr, hinv, hreads⟩ := i.memFreeBegin ht active memPtr
      simp only [System.step, ht, hr, Option.map_some, Option.some.injEq, Prod.mk.injEq] at he
      obtain ⟨rfl, rfl⟩ := he
      exact ⟨hinv, hreads⟩
    | allocating => simp [System.step, ht] at he
    | freeing => simp [System.step, ht] at he
  | resume t =>
    cases ht : σ.threads t with
    | idle => simp [System.step, ht] at he
    | allocating req td ptr =>
      simp only [System.step, ht, Option.some.injEq, Prod.mk.injEq] at he
      obtain ⟨rfl, rfl⟩ := he
      obtain ⟨⟨bs', fl', rl', hinv⟩, hreads⟩ := i.memAllocResume ht
      exact ⟨⟨bs', fl', rl', limbo, hinv⟩, hreads⟩
    | freeing b next =>
      simp only [System.step, ht, Option.some.injEq, Prod.mk.injEq] at he
      simp only [System.Meets, ht] at hm
      obtain ⟨rfl, rfl⟩ := he
      exact i.memFreeResume ht (hm trivial)

/-- No call hangs. -/
theorem step_isSome (i : SystemInv mp σ bs fl rl limbo) {e : Event} (h : σ.Enabled e) :
    (σ.step mp e).isSome := by
  cases e with
  | beginAlloc t size td =>
    have ht : σ.threads t = .idle := h
    simp [System.step, ht]
  | beginFree t active memPtr =>
    have ht : σ.threads t = .idle := h
    obtain ⟨r, hr, -⟩ := i.memFreeBegin ht active memPtr
    simp [System.step, ht, hr]
  | resume t =>
    have ht : σ.threads t ≠ .idle := h
    cases ht' : σ.threads t with
    | idle => exact absurd ht' ht
    | allocating => simp [System.step, ht']
    | freeing => simp [System.step, ht']

end SystemInv

/-- A step that meets the condition. -/
def System.GuardedStep (mp : ℕ) (σ σ' : System) : Prop :=
  ∃ e reads, σ.Meets mp e ∧ σ.step mp e = some (σ', reads)

theorem SystemInv.reachable {mp : ℕ} {σ0 σ : System}
    (h0 : ∃ bs fl rl limbo, SystemInv mp σ0 bs fl rl limbo)
    (hrun : Relation.ReflTransGen (System.GuardedStep mp) σ0 σ) :
    ∃ bs fl rl limbo, SystemInv mp σ bs fl rl limbo := by
  induction hrun with
  | refl => exact h0
  | tail _ hstep ih =>
    obtain ⟨bs, fl, rl, limbo, i⟩ := ih
    obtain ⟨e, reads, hm, he⟩ := hstep
    exact (i.step hm he).1

/-- The pool while calls are in progress: the blocks that are being released are neither
free nor owned by a task. -/
def System.WellFormed (mp : ℕ) (σ : System) : Prop :=
  ∃ bs fl rl limbo, PoolInv σ.kernel mp bs fl rl limbo [] ∧
    ∀ b, b ∈ limbo ↔ ∃ t next, σ.threads t = .freeing b next

/-- The pointer is not `NULL` and its block is on the free list. -/
def OnFreeList (s : Kernel) (mp p : ℕ) : Prop :=
  p ≠ 0 ∧ ∃ fl, (s.freeList mp).Represents 0 fl ∧ p ∈ fl

/-- In every interleaving in which no release goes on with an empty free list, the pool is
well formed in every window, every step is possible, and the loops dereference blocks of
the free list only. -/
theorem interleaving_safe {s s0 : Kernel} {start end_ mp : ℕ} (hstart : start ≠ 0)
    (hfits : start + 271 < 2 ^ 32) (hend : end_ < 2 ^ 32)
    (hlists : ∀ t, s.memoryResourceList t = 0)
    (hcreate : memCreatePoolInternal s start end_ mp = (.ok, s0)) {σ : System}
    (hrun : Relation.ReflTransGen (System.GuardedStep mp) ⟨s0, fun _ => .idle⟩ σ) :
    σ.WellFormed mp ∧ (∀ e, σ.Enabled e → (σ.step mp e).isSome) ∧
      ∀ e σ' reads, σ.Meets mp e → σ.step mp e = some (σ', reads) →
        ∀ p ∈ reads, OnFreeList σ.kernel mp p := by
  obtain ⟨b, e, hinit⟩ := PoolInv.memCreatePoolInternal_spec hstart hfits hend hlists hcreate
  have h0 : SystemInv mp ⟨s0, fun _ => .idle⟩ [b, e] [b] (fun _ => []) [] := by
    refine ⟨⟨hinit, by simp, ⟨by simp, by simp, by simp, by simp⟩, ?_⟩, ?_⟩
    · simp [Thread.IsAllocating]
    · simp [Thread.IsFreeing]
  obtain ⟨bs, fl, rl, limbo, i⟩ := SystemInv.reachable ⟨_, _, _, _, h0⟩ hrun
  refine ⟨⟨bs, fl, rl, limbo, i.pool, i.locals.limbo⟩, fun e he => i.step_isSome he, ?_⟩
  intro e σ' reads hm he p hp
  have hfl := (i.step hm he).2 p hp
  refine ⟨?_, fl, i.pool.free, hfl⟩
  rintro rfl
  exact i.pool.free.null_notMem hfl

namespace System

/-- Run a list of events. -/
def exec (mp : ℕ) (σ : System) (events : List Event) : Option System :=
  events.foldlM (fun σ e => (σ.step mp e).map Prod.fst) σ

/-- Run a list of events as long as they meet the condition. -/
def guardedExec (mp : ℕ) (σ : System) (events : List Event) : Option System :=
  events.foldlM (fun σ e => if σ.Meets mp e then (σ.step mp e).map Prod.fst else none) σ

theorem guardedExec_reachable {mp : ℕ} {σ σ' : System} {events : List Event}
    (h : σ.guardedExec mp events = some σ') :
    Relation.ReflTransGen (GuardedStep mp) σ σ' := by
  induction events generalizing σ with
  | nil =>
    obtain rfl : σ = σ' := by simpa [guardedExec] using h
    exact .refl
  | cons e events ih =>
    simp only [guardedExec, List.foldlM_cons, Option.bind_eq_bind, Option.bind_eq_some_iff,
      Option.ite_none_right_eq_some, Option.map_eq_some_iff] at h
    obtain ⟨σ1, ⟨hm, ⟨σ2, reads⟩, he, rfl⟩, hrest⟩ := h
    exact .head ⟨e, reads, hm, he⟩ (ih hrest)

end System

theorem interleaving_safe_smallPool : ∃ σ, System.guardedExec 1 ⟨smallPool, fun _ => .idle⟩
    [.beginAlloc 1 16 1, .beginAlloc 2 60 2, .resume 2, .resume 1, .beginFree 2 2 0x1020] = some σ ∧
      σ.WellFormed 1 := by
  have hsome : (System.guardedExec 1 ⟨smallPool, fun _ => .idle⟩ [.beginAlloc 1 16 1,
      .beginAlloc 2 60 2, .resume 2, .resume 1, .beginFree 2 2 0x1020]).isSome := by
    decide +kernel
  obtain ⟨σ, hσ⟩ := Option.isSome_iff_exists.mp hsome
  exact ⟨σ, hσ, (interleaving_safe (by decide) (by decide) (by decide) (fun _ => rfl)
    smallPool_created (System.guardedExec_reachable hσ)).1⟩

/-- Task 1 waits in the insertion loop while task 2 allocates the two free blocks. When it
goes on, the list is empty and the loop reads `NEXT_FREE` of `NULL`. -/
theorem null_read_after_emptied_list : ∃ σ σ' reads, System.exec 1 ⟨mediumPool, fun _ => .idle⟩
    [.beginAlloc 2 16 2, .resume 2, .beginAlloc 2 16 2, .resume 2, .beginAlloc 2 16 2, .resume 2,
      .beginAlloc 2 16 2, .resume 2, .beginFree 2 2 0x1020, .beginFree 1 2 0x1080,
      .beginAlloc 2 100 2, .resume 2, .resume 2, .beginAlloc 2 16 2, .resume 2] = some σ ∧
    σ.step 1 (.resume 1) = some (σ', reads) ∧ 0 ∈ reads := by
  have h : (System.exec 1 ⟨mediumPool, fun _ => .idle⟩
      [.beginAlloc 2 16 2, .resume 2, .beginAlloc 2 16 2, .resume 2, .beginAlloc 2 16 2, .resume 2,
        .beginAlloc 2 16 2, .resume 2, .beginFree 2 2 0x1020, .beginFree 1 2 0x1080,
        .beginAlloc 2 100 2, .resume 2, .resume 2, .beginAlloc 2 16 2, .resume 2]).bind
      (fun σ => (σ.step 1 (.resume 1)).map Prod.snd) = some [0] := by
    decide +kernel
  obtain ⟨σ, hσ, he⟩ := Option.bind_eq_some_iff.mp h
  obtain ⟨⟨σ', reads⟩, hs, rfl⟩ := Option.map_eq_some_iff.mp he
  exact ⟨σ, σ', [0], hσ, hs, by simp⟩

end Mqx.Mem
