import Mqx.Mem.LwmemCalls

/-!
# Allocation keeps a lightweight pool well formed

A successful allocation hands out one block that lies inside a free block; the blocks in use
and the free blocks that are left keep what they were.
-/

namespace Mqx.Lwmem

open PointerList
open Function (update)
open Mem (add32_of_lt sub32_of_le adjustAlign adjustAlign_spec sub32_alignDown
  memoryAlignValLarger_spec)

/-- The block `q` of `k` bytes has been handed out to the task `td`. -/
structure Taken (h : Blocks) (s' : State) (mp unit td q k : ℕ) (bs fl bs' fl' : List ℕ) : Prop where
  layout : Layout s' mp unit bs' fl'
  mem : q ∈ bs'
  notMem : q ∉ fl'
  owner : s'.heap.u q = td
  size : s'.heap.blocksize q = k
  blocks : ∀ c ∈ bs', c ∈ fl' ∨ c = q ∨ c ∈ bs ∧ c ∉ fl
  kept : ∀ c ∈ fl, c ∈ fl' ∨ c = q
  used : ∀ c ∈ bs, c ∉ fl → c ∈ bs' ∧ c ∉ fl' ∧ c ≠ q ∧
    s'.heap.blocksize c = h.blocksize c ∧ s'.heap.u c = h.u c
  stale : ∀ c, c ∉ bs' → s'.heap.pool c = h.pool c

/-- Putting blocks with gaps into the place of a free block leaves gaps. -/
theorem Gaps.replace {h h' : Blocks} {b : ℕ} {f g x : List ℕ} (hg : Gaps h (f ++ b :: g))
    (hsame : ∀ c ∈ f ++ g, h'.blocksize c = h.blocksize c)
    (hx : ∀ c ∈ x, b ≤ c ∧ c + h'.blocksize c ≤ b + h.blocksize b) (hxx : Gaps h' x) :
    Gaps h' (f ++ (x ++ g)) := by
  obtain ⟨hf, hbg, hfb⟩ := List.pairwise_append.mp hg
  obtain ⟨hb, hg⟩ := List.pairwise_cons.mp hbg
  refine List.pairwise_append.mpr ⟨?_, List.pairwise_append.mpr ⟨hxx, ?_, ?_⟩, ?_⟩
  · refine hf.imp_of_mem fun {c d} hc _ hlt => ?_
    rw [hsame c (by simp [hc])]
    exact hlt
  · refine hg.imp_of_mem fun {c d} hc _ hlt => ?_
    rw [hsame c (by simp [hc])]
    exact hlt
  · intro c hc d hd
    have h1 := (hx c hc).2
    have h2 := hb d hd
    omega
  · intro c hc d hd
    rw [hsame c (by simp [hc])]
    rcases List.mem_append.mp hd with hd | hd
    · have h1 := hfb c hc b (by simp)
      have h2 := (hx d hd).1
      omega
    · exact hfb c hc d (by simp [hd])

namespace Layout

variable {s s' : State} {mp unit b n q k : ℕ} {bs l r fl f g bs' fl' : List ℕ}

/-- A free block is taken as it is. -/
theorem taken (i : Layout s mp unit bs (f ++ b :: g)) (td prev : ℕ) (hprev : f ≠ [] → f.getLast? = some prev) :
    Taken s.heap (s.take td mp b prev) mp unit td b (s.heap.blocksize b) bs (f ++ b :: g) bs (f ++ g) := by
  have hd := i.nodup_free
  have hb : b ∈ bs := i.free_mem b (by simp)
  have hsize : (s.take td mp b prev).heap.blocksize = s.heap.blocksize := s.take_blocksize
  have hpool : (s.take td mp b prev).heap.pool = update s.heap.pool b mp := by
    simp only [State.take, State.unlink, State.markUsed]
    split_ifs <;> rfl
  have hother : ∀ c, c ≠ b → c ∉ f → (s.take td mp b prev).heap.u c = s.heap.u c := by
    intro c hcb hcf
    rcases List.eq_nil_or_concat f with rfl | ⟨f, p, rfl⟩
    · have hhead : b = (s.pools mp).poolFreeListPtr := i.head_eq.symm
      simp only [State.take, State.unlink, if_pos hhead, State.markUsed]
      rw [Function.update_of_ne hcb]
      rfl
    · have hp : prev = p := by
        have := hprev (by simp)
        simpa using this.symm
      have hcp : c ≠ prev := by
        rintro rfl
        exact hcf (by simp [hp])
      simp only [State.take, State.unlink, State.markUsed]
      split_ifs
      · rw [Function.update_of_ne hcb]
        rfl
      · rw [Function.update_of_ne hcb]
        exact Function.update_of_ne hcp _ _
  refine ⟨i.take hprev, hb, ?_, ?_, by rw [hsize], ?_, ?_, ?_, ?_⟩
  · grind
  · simp [State.take, State.markUsed]
  · intro c hc
    by_cases hcb : c = b
    · exact Or.inr (Or.inl hcb)
    · by_cases hm : c ∈ f ++ g
      · exact Or.inl hm
      · refine Or.inr (Or.inr ⟨hc, ?_⟩)
        simp only [List.mem_append, List.mem_cons] at hm ⊢
        tauto
  · intro c hc
    simp only [List.mem_append, List.mem_cons] at hc ⊢
    tauto
  · intro c hc hm
    have hcb : c ≠ b := by
      rintro rfl
      exact hm (by simp)
    refine ⟨hc, ?_, hcb, by rw [hsize], hother c hcb fun hf => hm (by simp [hf])⟩
    simp only [List.mem_append, List.mem_cons] at hm ⊢
    tauto
  · intro c hc
    rw [hpool, Function.update_of_ne]
    rintro rfl
    exact hc hb

/-- A block is taken after a free block has been cut in two. -/
theorem taken_split {td : ℕ} (i : Layout s mp unit (l ++ b :: r) (f ++ b :: g)) (hlo : b < n)
    (hhi : n < b + s.heap.blocksize b)
    (ht : Taken (s.split mp b n).heap s' mp unit td q k (l ++ b :: n :: r) (f ++ b :: n :: g) bs' fl') :
    Taken s.heap s' mp unit td q k (l ++ b :: r) (f ++ b :: g) bs' fl' := by
  have hnbs : n ∉ l ++ b :: r := i.tiles.notMem_of_interior (b := b) (by simp) hlo hhi
  have hmem : ∀ c ∈ l ++ b :: r, c ∈ l ++ b :: n :: r ∧ c ≠ n := by
    intro c hc
    refine ⟨?_, fun h => hnbs (by rwa [← h])⟩
    simp only [List.mem_append, List.mem_cons] at hc ⊢
    tauto
  refine ⟨ht.layout, ht.mem, ht.notMem, ht.owner, ht.size, ?_, ?_, ?_, ?_⟩
  · intro c hc
    rcases ht.blocks c hc with h | h | ⟨h1, h2⟩
    · exact Or.inl h
    · exact Or.inr (Or.inl h)
    · refine Or.inr (Or.inr ?_)
      simp only [List.mem_append, List.mem_cons] at h1 h2 ⊢
      tauto
  · intro c hc
    refine ht.kept c ?_
    simp only [List.mem_append, List.mem_cons] at hc ⊢
    tauto
  · intro c hc hm
    obtain ⟨hc', hcn⟩ := hmem c hc
    have hcb : c ≠ b := by
      rintro rfl
      exact hm (by simp)
    obtain ⟨h1, h2, h3, h4, h5⟩ := ht.used c hc' (by
      simp only [List.mem_append, List.mem_cons] at hm ⊢
      tauto)
    refine ⟨h1, h2, h3, ?_, ?_⟩
    · rw [h4, State.split_blocksize, Function.update_of_ne hcb, Function.update_of_ne hcn]
    · rw [h5]
      simp [State.split, State.addRest, State.setSize, State.setNext, hcb, hcn]
  · intro c hc
    have hcn : c ≠ n := by
      rintro rfl
      rcases ht.kept c (by simp) with h | rfl
      · exact hc (ht.layout.free_mem c h)
      · exact hc ht.mem
    rw [ht.stale c hc]
    simp [State.split, State.addRest, State.setSize, State.setNext, hcn]

end Layout

/-! ## The allocations -/

/-- A block that lies in a free block has been handed out, and the pools are as before but for
the free list. -/
structure Handed (s s' : State) (mp unit td q k : ℕ) (bs fl bs' fl' : List ℕ) : Prop
    extends Taken s.heap s' mp unit td q k bs fl bs' fl' where
  gaps : Gaps s'.heap fl'
  inside : ∃ b ∈ fl, b ≤ q ∧ q + k ≤ b + s.heap.blocksize b
  valid : ∀ m, (s'.pools m).valid = (s.pools m).valid
  highwater : (s'.pools mp).highwater = (s.pools mp).highwater

theorem State.take_valid (s : State) (td mp b prev m : ℕ) :
    ((s.take td mp b prev).pools m).valid = (s.pools m).valid := by
  simp only [State.take, State.unlink]
  split_ifs
  · by_cases hm : m = mp <;> simp [State.markUsed, State.setPool, hm]
  · rfl

theorem State.take_highwater (s : State) (td mp b prev : ℕ) :
    ((s.take td mp b prev).pools mp).highwater = (s.pools mp).highwater := by
  simp only [State.take, State.unlink]
  split_ifs
  · simp [State.markUsed, State.setPool]
  · rfl

/-- Where the block `q` that serves a request ends when it is cut out of the free block `b`: a
rest that is too small for a block goes with it. -/
def State.servedEnd (s : State) (b q req : ℕ) : ℕ :=
  if b + s.heap.blocksize b < q + req + lwmemMinMemoryStorageSize then b + s.heap.blocksize b
  else q + req

/-- Cut the block `q` out of the free block `b` in front of it. -/
def State.carve (s : State) (td mp b q req : ℕ) : State :=
  if b + s.heap.blocksize b < q + req + 16 then (s.split mp b q).take td mp q b
  else ((s.split mp b q).split mp q (q + req)).take td mp q b

namespace PoolInv

variable {s : State} {mp unit b q prev req : ℕ} {bs f g : List ℕ}

/-- The front of a free block is handed out. -/
theorem allocBlock (i : PoolInv s mp unit bs (f ++ b :: g)) (td : ℕ) (hprev : f ≠ [] → f.getLast? = some prev)
    (hmin : 16 ≤ req) (hunit : unit ∣ req) (hfit : req ≤ s.heap.blocksize b) :
    ∃ t k bs' fl', s.allocBlock td mp b prev req = t.rememberHighwater mp b ∧ req ≤ k ∧
      Handed s t mp unit td b k bs (f ++ b :: g) bs' fl' := by
  have hb : b ∈ bs := i.free_mem b (by simp)
  have hbb := i.bounds hb
  have hd := i.nodup_free
  have hne : ∀ c ∈ f ++ g, c ≠ b := by
    rintro c hc rfl
    grind
  by_cases hrest : s.heap.blocksize b < req + 16
  · refine ⟨_, _, _, _, s.allocBlock_whole hfit hrest (by omega), hfit, i.taken td prev hprev, ?_, ?_,
      s.take_valid td mp b prev, s.take_highwater td mp b prev⟩
    · have hgaps : (f ++ g).Pairwise fun b c => b + s.heap.blocksize b < c :=
        List.Pairwise.sublist (by simp) i.gaps
      unfold Gaps
      rwa [State.take_blocksize]
    · exact ⟨b, by simp, le_rfl, le_rfl⟩
  · obtain ⟨l, r, rfl⟩ := List.append_of_mem hb
    have hcut := i.toLayout.split (n := b + req) (Nat.dvd_add (i.aligned b hb).1 hunit) (by omega)
      (by omega)
    have htaken := hcut.taken td prev hprev
    have hsize : (s.split mp b (b + req)).heap.blocksize b = req := by
      rw [State.split_blocksize, Function.update_self]
      omega
    rw [hsize] at htaken
    refine ⟨_, _, _, _, s.allocBlock_rest (by omega) (by omega), le_rfl,
      i.toLayout.taken_split (by omega) (by omega) htaken, ?_, ?_,
      fun m => State.take_valid _ td mp b prev m, State.take_highwater _ td mp b prev⟩
    · refine i.gaps.replace (x := [b + req]) ?_ ?_ (by simp [Gaps])
      · intro c hc
        have hcn : c ≠ b + req := by
          rintro rfl
          have := i.free_mem (b + req) (by
            simp only [List.mem_append, List.mem_cons] at hc ⊢
            tauto)
          exact i.tiles.notMem_of_interior hb (by omega) (by omega) this
        rw [State.take_blocksize, State.split_blocksize, Function.update_of_ne (hne c hc),
          Function.update_of_ne hcn]
      · intro c hc
        rw [List.mem_singleton.mp hc, State.take_blocksize, State.split_blocksize,
          Function.update_of_ne (by omega), Function.update_self]
        omega
    · exact ⟨b, by simp, le_rfl, by omega⟩

/-- A block behind the start of a free block is handed out. -/
theorem carve (i : PoolInv s mp unit bs (f ++ b :: g)) (td : ℕ) (hq : unit ∣ q) (hlo : b + 16 ≤ q)
    (hmin : 16 ≤ req) (hunit : unit ∣ req) (hfit : q + req ≤ b + s.heap.blocksize b) :
    ∃ k bs' fl', req ≤ k ∧ q + k = s.servedEnd b q req ∧
      (s.carve td mp b q req).heap.blocksize b = q - b ∧
      Handed s (s.carve td mp b q req) mp unit td q k bs (f ++ b :: g) bs' fl' := by
  have hb : b ∈ bs := i.free_mem b (by simp)
  have hbb := i.bounds hb
  have hd := i.nodup_free
  have hne : ∀ c ∈ f ++ g, c ∈ f ++ b :: g ∧ c ≠ b := by
    intro c hc
    grind
  have hinterior : ∀ c ∈ f ++ g, ¬(b < c ∧ c < b + s.heap.blocksize b) := by
    intro c hc hlt
    exact i.tiles.notMem_of_interior hb hlt.1 hlt.2 (i.free_mem c (hne c hc).1)
  obtain ⟨l, r, rfl⟩ := List.append_of_mem hb
  have hcut := i.toLayout.split (n := q) hq (by omega) (by omega)
  have hsq : (s.split mp b q).heap.blocksize q = b + s.heap.blocksize b - q := by
    rw [State.split_blocksize, Function.update_of_ne (by omega), Function.update_self]
  have hsplitl : l ++ b :: q :: r = (l ++ [b]) ++ q :: r := by simp
  have hsplitf : f ++ b :: q :: g = (f ++ [b]) ++ q :: g := by simp
  by_cases hrest : b + s.heap.blocksize b < q + req + 16
  · have hcarve : s.carve td mp b q req = (s.split mp b q).take td mp q b := if_pos hrest
    have htaken := (hsplitf ▸ hcut).taken td b (by simp)
    rw [← hsplitf, hsq] at htaken
    have hsize : ∀ c, (s.carve td mp b q req).heap.blocksize c =
        update (update s.heap.blocksize q (b + s.heap.blocksize b - q)) b (q - b) c := by
      intro c
      rw [hcarve, State.take_blocksize, State.split_blocksize]
    have hback := i.toLayout.taken_split (by omega) (by omega) htaken
    rw [← hcarve] at hback
    refine ⟨b + s.heap.blocksize b - q, l ++ b :: q :: r, f ++ [b] ++ g, by omega, by
      rw [State.servedEnd, minSize_eq, if_pos hrest]
      omega, by rw [hsize, Function.update_self], hback, ?_, ?_, ?_, ?_⟩
    · have hgaps : Gaps (s.carve td mp b q req).heap (f ++ ([b] ++ g)) := by
        refine i.gaps.replace ?_ ?_ (by simp [Gaps])
        · intro c hc
          have hcq : c ≠ q := by
            rintro rfl
            exact hinterior c hc (by omega)
          rw [hsize, Function.update_of_ne (hne c hc).2, Function.update_of_ne hcq]
        · intro c hc
          rw [List.mem_singleton.mp hc, hsize, Function.update_self]
          omega
      simpa using hgaps
    · exact ⟨b, by simp, by omega, by omega⟩
    · intro m
      rw [hcarve, State.take_valid]
      rfl
    · rw [hcarve, State.take_highwater]
      rfl
  · have hcarve : s.carve td mp b q req = ((s.split mp b q).split mp q (q + req)).take td mp q b :=
      if_neg hrest
    have hcutl : Layout (s.split mp b q) mp unit ((l ++ [b]) ++ q :: r) ((f ++ [b]) ++ q :: g) := by
      simpa using hcut
    have hcut2 := hcutl.split (n := q + req) (Nat.dvd_add hq hunit) (by omega) (by omega)
    have htaken := hcut2.taken td b (by simp)
    have hsq2 : ((s.split mp b q).split mp q (q + req)).heap.blocksize q = req := by
      rw [State.split_blocksize, Function.update_self]
      omega
    rw [hsq2] at htaken
    have htaken2 := hcutl.taken_split (by omega) (by omega) htaken
    rw [← hsplitl, ← hsplitf] at htaken2
    have hsize : ∀ c, (s.carve td mp b q req).heap.blocksize c =
        update (update (update (update s.heap.blocksize q (b + s.heap.blocksize b - q)) b (q - b))
          (q + req) (b + s.heap.blocksize b - (q + req))) q req c := by
      intro c
      rw [hcarve, State.take_blocksize, State.split_blocksize, hsq, State.split_blocksize]
      have h1 : q + (b + s.heap.blocksize b - q) - (q + req) =
          b + s.heap.blocksize b - (q + req) := by omega
      have h2 : q + req - q = req := by omega
      rw [h1, h2]
    have hsb : (s.carve td mp b q req).heap.blocksize b = q - b := by
      rw [hsize, Function.update_of_ne (by omega), Function.update_of_ne (by omega),
        Function.update_self]
    have hsn : (s.carve td mp b q req).heap.blocksize (q + req) =
        b + s.heap.blocksize b - (q + req) := by
      rw [hsize, Function.update_of_ne (by omega), Function.update_self]
    have hback := i.toLayout.taken_split (by omega) (by omega) htaken2
    rw [← hcarve] at hback
    refine ⟨req, l ++ [b] ++ q :: (q + req) :: r, f ++ [b] ++ (q + req) :: g, le_rfl, by
      rw [State.servedEnd, minSize_eq, if_neg hrest], hsb, hback, ?_, ?_, ?_, ?_⟩
    · have hgaps : Gaps (s.carve td mp b q req).heap (f ++ ([b, q + req] ++ g)) := by
        refine i.gaps.replace ?_ ?_ ?_
        · intro c hc
          have hcq : c ≠ q := by
            rintro rfl
            exact hinterior c hc (by omega)
          have hcn : c ≠ q + req := by
            rintro rfl
            exact hinterior _ hc (by omega)
          rw [hsize, Function.update_of_ne hcq, Function.update_of_ne hcn,
            Function.update_of_ne (hne c hc).2, Function.update_of_ne hcq]
        · intro c hc
          rcases List.mem_pair.mp hc with rfl | rfl
          · rw [hsb]
            omega
          · rw [hsn]
            omega
        · simp only [Gaps, List.pairwise_pair, hsb]
          omega
      simpa using hgaps
    · exact ⟨b, by simp, by omega, by omega⟩
    · intro m
      rw [hcarve, State.take_valid]
      rfl
    · rw [hcarve, State.take_highwater]
      rfl

end PoolInv

/-! ## Whole calls -/

/-- The first free block that holds the requested block. -/
def State.FirstFitAt (s : State) (mp addr req : ℕ) : ℕ → Prop :=
  FirstOn s.heap.u (s.pools mp).poolFreeListPtr 0 fun b =>
    add32 b lwmemMinMemoryStorageSize ≤ getLwmemblockPtr addr ∧
      add32 (getLwmemblockPtr addr) req ≤ add32 b (s.heap.blocksize b)

/-- A call has handed out the block `q` of `k` bytes and has remembered `e` as its end. -/
structure Allocated (s s' : State) (mp unit td q k e : ℕ) (bs fl bs' fl' : List ℕ) : Prop
    extends Taken s.heap s' mp unit td q k bs fl bs' fl' where
  gaps : Gaps s'.heap fl'
  inside : ∃ b ∈ fl, b ≤ q ∧ q + k ≤ b + s.heap.blocksize b
  valid : ∀ m, (s'.pools m).valid = (s.pools m).valid
  highwater : (s'.pools mp).highwater = max (s.pools mp).highwater (e - 1)

/-- The fields that the invariant reads of a pool are the same. -/
structure SameFrame (p p' : Pool) : Prop where
  valid : p'.valid = p.valid
  start : p'.poolAllocStartPtr = p.poolAllocStartPtr
  end_ : p'.poolAllocEndPtr = p.poolAllocEndPtr
  list : p'.poolFreeListPtr = p.poolFreeListPtr

theorem SameFrame.trans {p q r : Pool} (h1 : SameFrame p q) (h2 : SameFrame q r) :
    SameFrame p r :=
  ⟨h2.valid.trans h1.valid, h2.start.trans h1.start, h2.end_.trans h1.end_, h2.list.trans h1.list⟩

theorem Layout.congr_frame {s s' : State} {mp unit : ℕ} {bs fl : List ℕ}
    (i : Layout s mp unit bs fl) (hheap : s'.heap = s.heap)
    (h : SameFrame (s.pools mp) (s'.pools mp)) : Layout s' mp unit bs fl :=
  i.congr h.valid h.start h.end_ h.list (fun _ _ => by rw [hheap]) (fun _ _ => by rw [hheap])
    (fun _ _ => by rw [hheap])

theorem State.rememberHighwater_heap (s : State) (mp b : ℕ) :
    (s.rememberHighwater mp b).heap = s.heap := by
  simp only [State.rememberHighwater]
  split_ifs <;> rfl

/-- A store to a pool that keeps what the invariant reads. -/
theorem State.setPool_frame (s : State) {mp : ℕ} {p : Pool} (h : SameFrame (s.pools mp) p) (m : ℕ) :
    SameFrame (s.pools m) ((s.setPool mp p).pools m) := by
  by_cases hm : m = mp
  · subst hm
    simpa only [State.setPool, Function.update_self] using h
  · simp only [State.setPool, Function.update_of_ne hm]
    exact ⟨rfl, rfl, rfl, rfl⟩

theorem State.rememberHighwater_frame (s : State) (mp b m : ℕ) :
    SameFrame (s.pools m) ((s.rememberHighwater mp b).pools m) := by
  rw [State.rememberHighwater]
  by_cases h : (s.pools mp).highwater < sub32 (add32 b (s.heap.blocksize b)) 1
  · rw [if_pos h]
    have hp : SameFrame (s.pools mp) { s.pools mp with
        highwater := sub32 (add32 b (s.heap.blocksize b)) 1 } := ⟨rfl, rfl, rfl, rfl⟩
    exact s.setPool_frame hp m
  · rw [if_neg h]
    exact ⟨rfl, rfl, rfl, rfl⟩

theorem State.rememberHighwater_highwater (s : State) (mp b : ℕ)
    (hpos : 0 < b + s.heap.blocksize b) (hlt : b + s.heap.blocksize b < 2 ^ 32) :
    ((s.rememberHighwater mp b).pools mp).highwater =
      max (s.pools mp).highwater (b + s.heap.blocksize b - 1) := by
  have hmark : sub32 (add32 b (s.heap.blocksize b)) 1 = b + s.heap.blocksize b - 1 := by
    rw [add32_of_lt hlt, sub32_of_le hpos hlt]
  simp only [State.rememberHighwater, hmark]
  split_ifs with h
  · simp only [State.setPool, Function.update_self]
    omega
  · omega

theorem State.resetPointers_heap (s : State) (mp : ℕ) : (s.resetPointers mp).heap = s.heap := rfl

theorem State.resetPointers_frame (s : State) (mp m : ℕ) :
    SameFrame (s.pools m) ((s.resetPointers mp).pools m) := by
  refine s.setPool_frame ?_ m
  exact ⟨rfl, rfl, rfl, rfl⟩

theorem State.resetPointers_highwater (s : State) (mp : ℕ) :
    ((s.resetPointers mp).pools mp).highwater = (s.pools mp).highwater := by
  simp [State.resetPointers, State.setPool]

theorem State.atWindow_frame (s : State) (mp b m : ℕ) :
    SameFrame (s.pools m) ((s.atWindow mp b).pools m) := by
  refine s.setPool_frame ?_ m
  exact ⟨rfl, rfl, rfl, rfl⟩

theorem State.atWindow_highwater (s : State) (mp b : ℕ) :
    ((s.atWindow mp b).pools mp).highwater = (s.pools mp).highwater := by
  simp [State.atWindow, State.setPool]

theorem PoolInv.atWindow {s : State} {mp unit : ℕ} {bs fl : List ℕ} (i : PoolInv s mp unit bs fl)
    (b : ℕ) : PoolInv (s.atWindow mp b) mp unit bs fl :=
  ⟨i.toLayout.atWindow b, i.gaps⟩

/-- The end of a call that has handed out a block; `x` is the block whose end is remembered. -/
theorem Handed.finish {s t : State} {mp unit td q k b e : ℕ} {bs fl bs' fl' : List ℕ} {x : ℕ}
    (h : Handed (s.atWindow mp b) t mp unit td q k bs fl bs' fl') (he : x + t.heap.blocksize x = e)
    (hpos : 0 < e) (hlt : e < 2 ^ 32) :
    Allocated s ((t.rememberHighwater mp x).resetPointers mp) mp unit td q k e bs fl bs' fl' := by
  have hheap : ((t.rememberHighwater mp x).resetPointers mp).heap = t.heap :=
    (State.resetPointers_heap _ mp).trans (t.rememberHighwater_heap mp x)
  have hframe : ∀ m, SameFrame (t.pools m)
      (((t.rememberHighwater mp x).resetPointers mp).pools m) := fun m =>
    (t.rememberHighwater_frame mp x m).trans (State.resetPointers_frame _ mp m)
  have hwindow : (s.atWindow mp b).heap = s.heap := rfl
  have hinside := h.inside
  have hused := h.used
  have hstale := h.stale
  rw [hwindow] at hinside hused hstale
  refine ⟨⟨h.layout.congr_frame hheap (hframe mp), h.mem, h.notMem, ?_, ?_, h.blocks, h.kept, ?_,
    ?_⟩, ?_, hinside, ?_, ?_⟩
  · rw [hheap, h.owner]
  · rw [hheap, h.size]
  · rw [hheap]
    exact hused
  · rw [hheap]
    exact hstale
  · rw [hheap]
    exact h.gaps
  · intro m
    rw [(hframe m).valid, h.valid m, (s.atWindow_frame mp b m).valid]
  · rw [State.resetPointers_highwater, State.rememberHighwater_highwater _ _ _ (by omega) (by omega),
      h.highwater, State.atWindow_highwater, he]

/-- An adjusted size is the size of a block, unless the adjustment has wrapped around to 0. -/
theorem adjustSize_spec {size : ℕ} (h : adjustSize size ≠ 0) :
    16 ≤ adjustSize size ∧ 16 ∣ adjustSize size := by
  have hlt : add32 size sizeofLwmemBlock < 2 ^ 32 := Nat.mod_lt _ (by decide)
  unfold adjustSize at h ⊢
  by_cases hmin : add32 size sizeofLwmemBlock < lwmemMinMemoryStorageSize
  · simp only [hmin, if_true]
    decide
  · simp only [hmin, if_false] at h ⊢
    obtain ⟨h1, h2⟩ := memoryAlignValLarger_spec hlt h
    rw [minSize_eq] at hmin
    exact ⟨by omega, Nat.dvd_of_mod_eq_zero h2⟩

namespace PoolInv

variable {s : State} {mp unit td size : ℕ} {bs fl : List ℕ}

/-- `_lwmem_alloc_internal`. -/
theorem lwmemAllocInternal_spec (i : PoolInv s mp unit bs fl) (td : ℕ) (hunit : unit ∣ 16)
    (hsize : adjustSize size ≠ 0) :
    (lwmemAllocInternal s size td mp = some ((0, .outOfMemory), s.resetPointers mp) ∧
      ∀ c ∈ fl, s.heap.blocksize c < adjustSize size) ∨
    ∃ s' b k bs' fl', lwmemAllocInternal s size td mp = some ((userPtr b, .ok), s') ∧
      adjustSize size ≤ k ∧ b ∈ fl ∧ Allocated s s' mp unit td b k (b + k) bs fl bs' fl' := by
  obtain ⟨hmin, hdvd⟩ := adjustSize_spec hsize
  obtain ⟨a, s', hrun, hout⟩ := i.toLayout.alloc_cases (allocRequest_readsHeap (adjustSize size) td mp)
  cases hout with
  | none hnone hres hstate =>
    left
    subst hres hstate
    exact ⟨hrun, fun c hc => Nat.lt_of_not_le (hnone c hc)⟩
  | first pre post b prev hg hskip hfits hprev hres hstate =>
    right
    subst hg hres hstate
    obtain ⟨t, k, bs', fl', hblock, hk, hh⟩ := (i.atWindow b).allocBlock td hprev hmin
      (hunit.trans hdvd) hfits
    have hb := hh.layout.bounds hh.mem
    rw [hh.size] at hb
    refine ⟨_, b, k, bs', fl', hrun, hk, by simp, ?_⟩
    have hfin := hh.finish (x := b) (e := b + k) (by rw [hh.size]) (by omega) (by omega)
    rw [← hblock] at hfin
    exact hfin

/-- A block that lies strictly inside another one is not the head of the free list. -/
theorem ne_head {q b : ℕ} (i : PoolInv s mp unit bs fl) (hb : b ∈ fl) (hlo : b < q)
    (hhi : q < b + s.heap.blocksize b) : q ≠ (s.pools mp).poolFreeListPtr := by
  rw [i.head_eq]
  cases fl with
  | nil => simp at hb
  | cons c g =>
    rintro rfl
    exact i.tiles.notMem_of_interior (i.free_mem b hb) hlo hhi (i.free_mem _ (by simp))

/-- `_lwmem_alloc_at_internal` of an address whose block is a multiple of the unit and does not
run over the end of the address space. -/
theorem lwmemAllocAtInternal_spec (i : PoolInv s mp unit bs fl) (td : ℕ) {addr : ℕ}
    (hunit : unit ∣ 16) (hsize : adjustSize size ≠ 0) (haddr : unit ∣ getLwmemblockPtr addr)
    (hwrap : getLwmemblockPtr addr + adjustSize size < 2 ^ 32) :
    (lwmemAllocAtInternal s size addr td mp = some ((0, .outOfMemory), s.resetPointers mp) ∧
      ∀ b, ¬s.FirstFitAt mp addr (adjustSize size) b) ∨
    ∃ s' k bs' fl' b, lwmemAllocAtInternal s size addr td mp = some ((addr, .ok), s') ∧
      adjustSize size ≤ k ∧ 0 < getLwmemblockPtr addr ∧ s.FirstFitAt mp addr (adjustSize size) b ∧
      getLwmemblockPtr addr + k = s.servedEnd b (getLwmemblockPtr addr) (adjustSize size) ∧
      Allocated s s' mp unit td (getLwmemblockPtr addr) k (getLwmemblockPtr addr) bs fl bs' fl' := by
  obtain ⟨hmin, hdvd⟩ := adjustSize_spec hsize
  obtain ⟨q, hq⟩ : ∃ q, q = getLwmemblockPtr addr := ⟨_, rfl⟩
  rw [← hq] at haddr hwrap ⊢
  obtain ⟨a, s', hrun, hout⟩ :=
    i.toLayout.alloc_cases (allocAtRequest_readsHeap (adjustSize size) addr td mp)
  cases hout with
  | none hnone hres hstate =>
    left
    subst hres hstate
    refine ⟨hrun, fun b hb => ?_⟩
    obtain ⟨hbf, hbfit⟩ := hb.mem i.free i.null_notMem
    exact hnone b hbf hbfit
  | first pre post b prev hg hskip hfits hprev hres hstate =>
    right
    subst hg hres hstate
    have hmem : b ∈ pre ++ b :: post := by simp
    have hfirst : s.FirstFitAt mp addr (adjustSize size) b :=
      ⟨pre, post, i.free, i.null_notMem, hskip, hfits⟩
    have hb := i.bounds (i.free_mem b hmem)
    have hlo : b + 16 ≤ q := by
      have := hfits.1
      rw [minSize_eq, add32_of_lt (by omega), ← hq] at this
      exact this
    have hhi : q + adjustSize size ≤ b + s.heap.blocksize b := by
      have := hfits.2
      rw [← hq, add32_of_lt hwrap, add32_of_lt (by omega)] at this
      exact this
    have hhead := (i.atWindow b).ne_head (q := q) hmem (by omega) (by
      have hwindow : (s.atWindow mp b).heap = s.heap := rfl
      rw [hwindow]
      omega)
    obtain ⟨k, bs', fl', hk, hend', hfree, hh⟩ :=
      (i.atWindow b).carve td haddr hlo hmin (hunit.trans hdvd) hhi
    have hend : b + s.heap.blocksize b < 2 ^ 32 := by omega
    have hblock : (s.atWindow mp b).allocBlockAt td mp b addr (adjustSize size) =
        ((s.atWindow mp b).carve td mp b q (adjustSize size)).rememberHighwater mp b := by
      unfold State.carve
      split_ifs with hrest
      · exact State.allocBlockAt_whole _ hq.symm hlo hhi hrest hend hhead
      · exact State.allocBlockAt_rest _ hq.symm rfl hlo (by omega) (Nat.le_of_not_lt hrest) hend hhead
    have hfin := hh.finish (x := b) (e := q) (by rw [hfree]; omega) (by omega) (by omega)
    rw [← hblock] at hfin
    simp only [allocAtRequest] at hrun
    exact ⟨_, k, bs', fl', b, hrun, hk, by omega, hfirst, hend', hfin⟩

/-- The leading piece of an aligned allocation is a block of its own. -/
theorem alignShift_spec {a b : ℕ} (h16 : 16 ∣ a) (hd : a ∣ 2 ^ 32) (hlt : a < 2 ^ 32)
    (hb : b % 4 = 0) (hb16 : b + 16 < 2 ^ 32) :
    32 ≤ alignShift a b ∧ alignShift a b % 4 = 0 := by
  have h0 : 0 < a := Nat.pos_of_dvd_of_pos hd (by decide)
  have ha : a ≤ 2 ^ 31 := by
    obtain ⟨n, hn⟩ := hd
    have hn2 : 2 ≤ n := by
      by_contra hn2
      interval_cases n <;> omega
    have hmul := Nat.mul_le_mul_left a hn2
    omega
  have hu : userPtr b = b + 12 := add32_of_lt (by simp only [sizeofLwmemBlock]; omega)
  have hadd0 : add32 (b + 12) a = add32 (add32 (b + 12) 0) a := by
    rw [add32_of_lt (show b + 12 + 0 < 2 ^ 32 by omega), Nat.add_zero]
  unfold alignShift
  simp only [hu, minSize_eq]
  rw [hadd0, sub32_alignDown (by omega) hd h0 (by omega), sub32_alignDown (by omega) hd h0 (by omega)]
  have h4 : 4 ∣ a := Nat.dvd_trans (by decide) h16
  have h1 : (b + 12 + 0) % a % 4 = (b + 12 + 0) % 4 := Nat.mod_mod_of_dvd _ h4
  have h2 : (b + 12 + 3 * 16) % a % 4 = (b + 12 + 3 * 16) % 4 := Nat.mod_mod_of_dvd _ h4
  have hl1 : (b + 12 + 0) % a < a := Nat.mod_lt _ h0
  have hl2 : (b + 12 + 3 * 16) % a < a := Nat.mod_lt _ h0
  generalize (b + 12 + 0) % a = x at *
  generalize (b + 12 + 3 * 16) % a = y at *
  split_ifs <;> omega

/-- `_lwmem_alloc_align_internal`, when no sum of the request and the leading piece of a free
block runs over the end of the address space. -/
theorem lwmemAllocAlignInternal_spec (i : PoolInv s mp 4 bs fl) (td : ℕ) {reqAlign : ℕ}
    (hsize : adjustSize (max size lwmemMinMemoryStorageSize) ≠ 0) (hlt : reqAlign < 2 ^ 32)
    (hwrap : ∀ c ∈ fl, adjustSize (max size lwmemMinMemoryStorageSize) +
      alignShift (adjustAlign reqAlign) c < 2 ^ 32) :
    lwmemAllocAlignInternal s size reqAlign td mp = some ((0, .invalidParameter), s) ∨
    lwmemAllocAlignInternal s size reqAlign td mp =
      some ((0, .outOfMemory), s.resetPointers mp) ∨
    ∃ s' q k bs' fl', lwmemAllocAlignInternal s size reqAlign td mp = some ((userPtr q, .ok), s') ∧
      adjustSize (max size lwmemMinMemoryStorageSize) ≤ k ∧
      Allocated s s' mp 4 td q k (q + k) bs fl bs' fl' := by
  unfold lwmemAllocAlignInternal
  dsimp only
  by_cases hpow : reqAlign ≠ 0 ∧ reqAlign &&& (reqAlign - 1) ≠ 0
  · rw [if_pos hpow]
    exact Or.inl rfl
  rw [if_neg hpow]
  right
  obtain ⟨h16, hd, hal⟩ := adjustAlign_spec hlt hpow
  obtain ⟨hmin, hdvd⟩ := adjustSize_spec hsize
  generalize adjustSize (max size lwmemMinMemoryStorageSize) = req at *
  generalize adjustAlign reqAlign = align at *
  obtain ⟨a, s', hrun, hout⟩ := i.toLayout.alloc_cases (allocAlignRequest_readsHeap req align td mp)
  cases hout with
  | none hnone hres hstate =>
    left
    subst hres hstate
    exact hrun
  | first pre post b prev hg hskip hfits hprev hres hstate =>
    right
    subst hg hres hstate
    have hmem : b ∈ pre ++ b :: post := by simp
    have hb := i.bounds (i.free_mem b hmem)
    have hb4 : b % 4 = 0 := Nat.mod_eq_zero_of_dvd (i.aligned b (i.free_mem b hmem)).1
    have hfit : req + alignShift align b ≤ s.heap.blocksize b := by
      have : add32 req (alignShift align b) ≤ s.heap.blocksize b := hfits
      rwa [add32_of_lt (hwrap b hmem)] at this
    obtain ⟨hshift, hshift4⟩ := alignShift_spec h16 hd hal hb4 (by omega)
    obtain ⟨q, hq⟩ : ∃ q, b + alignShift align b = q := ⟨_, rfl⟩
    have hblockptr : add32 b (alignShift align b) = q := (add32_of_lt (by omega)).trans hq
    have hhi : q + req ≤ b + s.heap.blocksize b := by omega
    have hhead := (i.atWindow b).ne_head (q := q) hmem (by omega) (by
      have hwindow : (s.atWindow mp b).heap = s.heap := rfl
      rw [hwindow]
      omega)
    obtain ⟨k, bs', fl', hk, -, -, hh⟩ :=
      (i.atWindow b).carve (q := q) td (by omega) (by omega) hmin (Nat.dvd_trans (by decide) hdvd) hhi
    have hend : b + s.heap.blocksize b < 2 ^ 32 := by omega
    have hblock : (s.atWindow mp b).allocBlockAlign td mp b req align =
        ((s.atWindow mp b).carve td mp b q req).rememberHighwater mp q := by
      unfold State.carve
      split_ifs with hrest
      · exact State.allocBlockAlign_whole _ hq (by omega) hhi hrest hend hhead
      · exact State.allocBlockAlign_rest _ hq rfl (by omega) (by omega) (Nat.le_of_not_lt hrest) hend
          hhead
    have hqb := hh.layout.bounds hh.mem
    rw [hh.size] at hqb
    have hfin := hh.finish (x := q) (e := q + k) (by rw [hh.size]) (by omega) (by omega)
    rw [← hblock] at hfin
    have hptr : (allocAlignRequest req align td mp).ptr b = userPtr q := by
      simp only [allocAlignRequest, hblockptr]
    rw [hptr] at hrun
    exact ⟨_, q, k, bs', fl', hrun, hk, hfin⟩

end PoolInv
end Mqx.Lwmem
