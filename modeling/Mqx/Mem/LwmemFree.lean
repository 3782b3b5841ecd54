import Mqx.Mem.LwmemAlloc

/-!
# Release keeps a lightweight pool well formed

The insertion loop stops at the place of the block in the address order. The block is put on
the free list there and joined with the free blocks that it touches; the header of a block that
is joined to the one before it is cleared.
-/

namespace Mqx.Lwmem

open PointerList
open Function (update)
open Mem (add32_of_lt sub32_of_le)

/-! ## The insertion loop -/

theorem State.joinNext_setPool (s : State) (mp b n : ℕ) (x : Pool) :
    (s.setPool mp x).joinNext b n = (s.joinNext b n).setPool mp x := by
  have hheap : (s.setPool mp x).heap = s.heap := rfl
  simp only [State.joinNext, hheap]
  split_ifs <;> rfl

theorem State.joinPrev_setPool (s : State) (mp p b : ℕ) (x : Pool) :
    (s.setPool mp x).joinPrev p b = (s.joinPrev p b).setPool mp x := by
  have hheap : (s.setPool mp x).heap = s.heap := rfl
  simp only [State.joinPrev, hheap]
  split_ifs <;> rfl

theorem State.insertAfter_setPool (s : State) (mp p b : ℕ) (x : Pool) :
    (s.setPool mp x).insertAfter p b = (s.insertAfter p b).setPool mp x := by
  have hheap : (s.setPool mp x).heap = s.heap := rfl
  rw [State.insertAfter, State.insertAfter, hheap, State.joinNext_setPool, State.joinPrev_setPool]

theorem State.joinNext_pools (s : State) (b n : ℕ) : (s.joinNext b n).pools = s.pools := by
  simp only [State.joinNext]
  split_ifs <;> rfl

theorem State.joinPrev_pools (s : State) (p b : ℕ) : (s.joinPrev p b).pools = s.pools := by
  simp only [State.joinPrev]
  split_ifs <;> rfl

theorem State.insertAfter_pools (s : State) (p b : ℕ) : (s.insertAfter p b).pools = s.pools := by
  rw [State.insertAfter, State.joinPrev_pools, State.joinNext_pools]

theorem State.resetPointers_setPool (s : State) (mp x : ℕ) :
    (s.setPool mp { s.pools mp with poolFreePtr := x }).resetPointers mp = s.resetPointers mp := by
  simp [State.resetPointers, State.setPool]

namespace Layout

variable {s t : State} {mp unit b p q : ℕ} {bs bs' fl f g : List ℕ}

/-- Behind a lower free block the insertion is not at the beginning of the list. -/
theorem not_first (i : Layout s mp unit bs (f ++ p :: g)) (hp : p < b) :
    ¬((s.pools mp).poolFreeListPtr = 0 ∨ b < (s.pools mp).poolFreeListPtr) := by
  rw [i.head_eq]
  have h0 := i.null_notMem
  have hsorted := i.sorted
  cases f with
  | nil =>
    simp only [List.nil_append, List.mem_cons, List.headD_cons] at h0 ⊢
    omega
  | cons c f =>
    have hcp : c < p := (List.pairwise_cons.mp hsorted).1 p (by simp)
    simp only [List.cons_append, List.mem_cons, List.headD_cons] at h0 ⊢
    omega

/-- The loop from a lower free block on stops behind the last lower free block. -/
theorem freeRun_loop (i : Layout s mp unit bs (f ++ p :: g)) (hp : p < b) (hb : b ∉ f ++ p :: g)
    (fuel : ℕ) (hfuel : g.length + 1 < fuel) :
    ∃ f' p' g', f ++ p :: g = f' ++ p' :: g' ∧ p' < b ∧ (∀ c ∈ g', b < c) ∧
      freeRun mp b fuel (freeLoop s mp b p) = some (.ok, (s.insertAfter p' b).resetPointers mp) := by
  induction g generalizing f p s fuel with
  | nil =>
    obtain ⟨fuel, rfl⟩ : ∃ n, fuel = n + 1 := ⟨fuel - 1, by omega⟩
    have hfirst := i.not_first hp
    have hnext : b < s.heap.u p ∨ s.heap.u p = 0 := Or.inr (by simpa using i.next_eq)
    refine ⟨f, p, [], rfl, hp, by simp, ?_⟩
    simp only [freeLoop, if_neg hfirst, if_pos hnext]
    rfl
  | cons n g ih =>
    obtain ⟨fuel, rfl⟩ : ∃ n, fuel = n + 2 := ⟨fuel - 2, by simp at hfuel; omega⟩
    have hfirst := i.not_first hp
    have hu : s.heap.u p = n := by simpa using i.next_eq
    have hn0 : n ≠ 0 := by
      rintro rfl
      exact i.null_notMem (by simp)
    have hng : ∀ c ∈ g, n < c := by
      have h := (List.pairwise_append.mp i.sorted).2.1
      exact (List.pairwise_cons.mp (List.pairwise_cons.mp h).2).1
    by_cases hbn : b < n
    · refine ⟨f, p, n :: g, rfl, hp, ?_, ?_⟩
      · intro c hc
        rcases List.mem_cons.mp hc with rfl | hc
        · exact hbn
        · exact hbn.trans (hng c hc)
      · have hstop : b < s.heap.u p ∨ s.heap.u p = 0 := Or.inl (by rwa [hu])
        simp only [freeLoop, if_neg hfirst, if_pos hstop]
        rfl
    · have hnb : n ≠ b := by
        rintro rfl
        exact hb (by simp)
      have hgo : ¬(b < n ∨ n = 0) := by omega
      obtain ⟨s1, hs1⟩ : ∃ s1, s1 = s.setPool mp { s.pools mp with poolFreePtr := n } := ⟨_, rfl⟩
      have hptr : (s1.pools mp).poolFreePtr = n := by
        rw [hs1]
        simp [State.setPool]
      have hstep : freeRun mp b (fuel + 2) (freeLoop s mp b p) =
          freeRun mp b (fuel + 1) (freeLoop s1 mp b n) := by
        have hwindow : freeLoop s mp b p = (s1, .window n 0) := by
          simp only [freeLoop, if_neg hfirst, hu, if_neg hgo, hs1]
        rw [hwindow]
        have hresume : freeResume s1 mp b n = freeLoop s1 mp b n := by
          simp only [freeResume, hptr, ne_eq, not_true_eq_false, if_false]
        rw [← hresume]
        rfl
      have hsplit : f ++ p :: n :: g = (f ++ [p]) ++ n :: g := by simp
      have hlay : Layout s1 mp unit bs ((f ++ [p]) ++ n :: g) := by
        rw [hs1, ← hsplit]
        refine i.congr_frame rfl (s.setPool_frame ?_ mp)
        exact ⟨rfl, rfl, rfl, rfl⟩
      obtain ⟨f', p', g', he, hp', hg', hrun⟩ := ih hlay (by omega) (hsplit ▸ hb) (fuel + 1)
        (by simp at hfuel; omega)
      refine ⟨f', p', g', hsplit.trans he, hp', hg', ?_⟩
      rw [hstep, hrun, hs1, State.insertAfter_setPool]
      have hpools : s.pools mp = (s.insertAfter p' b).pools mp := by rw [State.insertAfter_pools]
      rw [hpools, State.resetPointers_setPool]

end Layout

/-! ## The released block -/

/-- The block `b` has been released; `fl'` is the free list it is on or has been joined to. -/
structure Freed (s t : State) (mp unit b : ℕ) (bs fl bs' fl' : List ℕ) : Prop where
  layout : Layout t mp unit bs' fl'
  blocks : ∀ c ∈ bs', c ∈ bs
  used : ∀ c ∈ bs, c ∉ fl → c ≠ b → c ∈ bs' ∧ c ∉ fl' ∧
    t.heap.blocksize c = s.heap.blocksize c ∧ t.heap.u c = s.heap.u c
  released : ∀ c, c ∈ fl ∨ c = b → c ∈ fl' ∨ t.heap.pool c = 0
  stale : ∀ c, t.heap.pool c = s.heap.pool c ∨ t.heap.pool c = 0

variable {s t : State} {mp unit b p q : ℕ} {bs bs' fl f g : List ℕ}

theorem Freed.merge (h : Freed s t mp unit b bs fl bs' (f ++ p :: q :: g))
    (hpq : p + t.heap.blocksize p = q) :
    ∃ l, Freed s (t.merge p q) mp unit b bs fl l (f ++ p :: g) := by
  obtain ⟨l, r, rfl⟩ := h.layout.exists_adjacent (h.layout.free_mem p (by simp))
    (h.layout.free_mem q (by simp)) hpq
  have hpool : ∀ c, c ≠ q → (t.merge p q).heap.pool c = t.heap.pool c := fun c hc =>
    Function.update_of_ne hc _ _
  have hzero : (t.merge p q).heap.pool q = 0 := Function.update_self ..
  refine ⟨l ++ p :: r, h.layout.merge, ?_, ?_, ?_, ?_⟩
  · intro c hc
    refine h.blocks c ?_
    simp only [List.mem_append, List.mem_cons] at hc ⊢
    tauto
  · intro c hc hfl hcb
    obtain ⟨h1, h2, h3, h4⟩ := h.used c hc hfl hcb
    simp only [List.mem_append, List.mem_cons, not_or] at h1 h2 ⊢
    obtain ⟨hf, hcp, hcq, hg⟩ := h2
    refine ⟨by tauto, ⟨hf, hcp, hg⟩, ?_, ?_⟩
    · rw [← h3]
      simp [State.merge, Blocks.zero, hcp, hcq]
    · rw [← h4]
      simp [State.merge, Blocks.zero, hcp, hcq]
  · intro c hc
    by_cases hcq : c = q
    · exact Or.inr (hcq ▸ hzero)
    · rcases h.released c hc with hm | hm
      · left
        simp only [List.mem_append, List.mem_cons] at hm ⊢
        tauto
      · exact Or.inr ((hpool c hcq).trans hm)
  · intro c
    by_cases hcq : c = q
    · exact Or.inr (hcq ▸ hzero)
    · rw [hpool c hcq]
      exact h.stale c

namespace Layout

theorem freed_insertHead (i : Layout s mp unit bs g) (hb : b ∈ bs) (hg : ∀ c ∈ g, b < c) :
    Freed s (s.insertHead mp b) mp unit b bs g bs (b :: g) := by
  refine ⟨i.insertHead hb hg, fun c hc => hc, ?_, ?_, fun c => Or.inl rfl⟩
  · intro c hc hm hcb
    refine ⟨hc, by simp [hm, hcb], rfl, ?_⟩
    exact Function.update_of_ne hcb _ _
  · intro c hc
    left
    simp only [List.mem_cons]
    tauto

theorem freed_insertBehind (i : Layout s mp unit bs (f ++ p :: g)) (hb : b ∈ bs) (hp : p < b)
    (hg : ∀ c ∈ g, b < c) :
    Freed s (s.insertBehind p b) mp unit b bs (f ++ p :: g) bs (f ++ p :: b :: g) := by
  refine ⟨i.insertBehind hb hp hg, fun c hc => hc, ?_, ?_, fun c => Or.inl rfl⟩
  · intro c hc hm hcb
    simp only [List.mem_append, List.mem_cons, not_or] at hm ⊢
    obtain ⟨hf, hcp, hg'⟩ := hm
    refine ⟨hc, ⟨hf, hcp, hcb, hg'⟩, rfl, ?_⟩
    simp [State.insertBehind, State.setNext, hcp, hcb]
  · intro c hc
    left
    simp only [List.mem_append, List.mem_cons] at hc ⊢
    tauto

/-- A block that does not touch the next free block ends before every higher one. -/
theorem end_lt (i : Layout s mp unit bs fl) (hsub : ∀ c ∈ g, c ∈ fl) (hsorted : g.Pairwise (· < ·))
    (hb : b ∈ bs) (hg : ∀ c ∈ g, b < c) (hne : ∀ c ∈ g.head?, b + s.heap.blocksize b ≠ c) :
    ∀ c ∈ g, b + s.heap.blocksize b < c := by
  cases g with
  | nil => simp
  | cons n g =>
    have hn := i.tiles.disjoint hb (i.free_mem n (hsub n (by simp))) (hg n (by simp))
    have hnn := hne n (by simp)
    intro c hc
    rcases List.mem_cons.mp hc with rfl | hc
    · omega
    · have := (List.pairwise_cons.mp hsorted).1 c hc
      omega

end Layout

/-- A block that ends before the free blocks behind it and starts behind the ends of those
before it is put on the list with gaps. -/
theorem Gaps.insert {h h' : Blocks} {x : ℕ} (hg : Gaps h (f ++ g))
    (hsame : ∀ c ∈ f ++ g, h'.blocksize c = h.blocksize c)
    (hf : ∀ c ∈ f, c + h.blocksize c < x) (hx : ∀ c ∈ g, x + h'.blocksize x < c) :
    Gaps h' (f ++ x :: g) := by
  obtain ⟨h1, h2, h3⟩ := List.pairwise_append.mp hg
  refine List.pairwise_append.mpr ⟨?_, List.pairwise_cons.mpr ⟨hx, ?_⟩, ?_⟩
  · refine h1.imp_of_mem fun {c d} hc _ hlt => ?_
    rw [hsame c (by simp [hc])]
    exact hlt
  · refine h2.imp_of_mem fun {c d} hc _ hlt => ?_
    rw [hsame c (by simp [hc])]
    exact hlt
  · intro c hc d hd
    rw [hsame c (by simp [hc])]
    rcases List.mem_cons.mp hd with rfl | hd
    · exact hf c hc
    · exact h3 c hc d hd

/-! ## The joins -/

namespace State

theorem joinNext_adjacent {n : ℕ} (s : State) (hadj : b + s.heap.blocksize b = n)
    (hlt : n + s.heap.blocksize n < 2 ^ 32) :
    s.joinNext b n = { s with heap := Blocks.zero { s.heap with
      blocksize := update s.heap.blocksize b (s.heap.blocksize b + s.heap.blocksize n)
      u := update s.heap.u b (s.heap.u n) } n } := by
  have h1 : add32 b (s.heap.blocksize b) = n := (add32_of_lt (by omega)).trans hadj
  have h2 : add32 (s.heap.blocksize b) (s.heap.blocksize n) =
      s.heap.blocksize b + s.heap.blocksize n := add32_of_lt (by omega)
  simp only [joinNext, if_pos h1, h2]

theorem joinNext_apart {n : ℕ} (s : State) (hne : b + s.heap.blocksize b ≠ n)
    (hlt : b + s.heap.blocksize b < 2 ^ 32) : s.joinNext b n = s.setNext b n := by
  have h1 : add32 b (s.heap.blocksize b) ≠ n := by rwa [add32_of_lt hlt]
  simp only [joinNext, if_neg h1]

theorem joinPrev_adjacent (s : State) (hadj : p + s.heap.blocksize p = b)
    (hlt : b + s.heap.blocksize b < 2 ^ 32) : s.joinPrev p b = s.merge p b := by
  have h1 : add32 p (s.heap.blocksize p) = b := (add32_of_lt (by omega)).trans hadj
  have h2 : add32 (s.heap.blocksize p) (s.heap.blocksize b) =
      s.heap.blocksize p + s.heap.blocksize b := add32_of_lt (by omega)
  simp only [joinPrev, if_pos h1, h2, merge]

theorem joinPrev_apart (s : State) (hne : p + s.heap.blocksize p ≠ b)
    (hlt : p + s.heap.blocksize p < 2 ^ 32) : s.joinPrev p b = s.setNext p b := by
  have h1 : add32 p (s.heap.blocksize p) ≠ b := by rwa [add32_of_lt hlt]
  simp only [joinPrev, if_neg h1]

/-- The link to the released block can be stored before or after the joins. -/
theorem setNext_merge (s : State) {n : ℕ} (hpb : p ≠ b) (hpn : p ≠ n) (hbn : b ≠ n) :
    (((s.setNext b n).setNext p b).merge b n) =
      ({ s with heap := Blocks.zero { s.heap with
        blocksize := update s.heap.blocksize b (s.heap.blocksize b + s.heap.blocksize n)
        u := update s.heap.u b (s.heap.u n) } n } : State).setNext p b := by
  simp only [merge, setNext, Blocks.zero, State.mk.injEq, Blocks.mk.injEq, and_true, true_and]
  funext c
  grind [Function.update_apply]

theorem merge_setNext (s : State) (hpb : p ≠ b) : (s.setNext p b).merge p b = s.merge p b := by
  simp only [merge, setNext, Blocks.zero, State.mk.injEq, Blocks.mk.injEq, and_true, true_and]
  funext c
  grind [Function.update_apply]

end State
/-- The block `b` has been put behind `p` and joined with what follows; only the join with `p`
is left. `g` are the free blocks behind it. -/
structure JoinedNext (s t : State) (mp unit p b : ℕ) (bs fl bs' f g : List ℕ) : Prop where
  freed : Freed s (t.setNext p b) mp unit b bs fl bs' ((f ++ [p]) ++ b :: g)
  sizes : ∀ c ∈ f ++ p :: g, t.heap.blocksize c = s.heap.blocksize c
  behind : ∀ c ∈ g, b + t.heap.blocksize b < c
  limit : b + t.heap.blocksize b < 2 ^ 32

namespace PoolInv

variable {l : List ℕ}

/-- Facts about the free blocks around the place of a block. -/
theorem around (i : PoolInv s mp unit bs (f ++ p :: g)) (hb : b ∈ bs) (hp : p < b)
    (hg : ∀ c ∈ g, b < c) :
    p + s.heap.blocksize p ≤ b ∧ g.Pairwise (· < ·) ∧
      (∀ c ∈ f, c + s.heap.blocksize c < p) ∧ ∀ c ∈ f ++ g, c ≠ p ∧ c ≠ b := by
  obtain ⟨-, hgp, hfp⟩ := List.pairwise_append.mp i.gaps
  have hpg := (List.pairwise_cons.mp hgp).1
  have hfc : ∀ c ∈ f, c + s.heap.blocksize c < p := fun c hc => hfp c hc p (by simp)
  have hsorted := (List.pairwise_append.mp i.sorted).2.1
  refine ⟨i.tiles.disjoint (i.free_mem p (by simp)) hb hp, (List.pairwise_cons.mp hsorted).2, hfc, ?_⟩
  intro c hc
  rcases List.mem_append.mp hc with hc | hc
  · have := hfc c hc
    omega
  · have h1 := hpg c hc
    have h2 := hg c hc
    omega

/-- The first half of the insertion behind `p`. -/
theorem joinedNext (i : PoolInv s mp unit bs (f ++ p :: g)) (hb : b ∈ bs) (hp : p < b)
    (hg : ∀ c ∈ g, b < c) :
    ∃ bs' g', g'.Sublist g ∧
      JoinedNext s (s.joinNext b (s.heap.u p)) mp unit p b bs (f ++ p :: g) bs' f g' := by
  obtain ⟨hpe, hsorted, hfc, hne⟩ := i.around hb hp hg
  have hbb := i.bounds hb
  have hlt := i.limit
  have hu : s.heap.u p = g.headD 0 := i.next_eq
  have hfreed := i.toLayout.freed_insertBehind hb hp hg
  by_cases hadj : b + s.heap.blocksize b = s.heap.u p
  · cases g with
    | nil =>
      simp only [hu, List.headD_nil] at hadj
      omega
    | cons n g =>
      have hn : s.heap.u p = n := hu
      rw [hn] at hadj ⊢
      have hnb := i.bounds (i.free_mem n (by simp))
      have hng : ∀ c ∈ g, n + s.heap.blocksize n < c := by
        have h := (List.pairwise_cons.mp (List.pairwise_append.mp i.gaps).2.1).2
        exact (List.pairwise_cons.mp h).1
      have hjoin := s.joinNext_adjacent hadj (by omega)
      have hmerge : (s.insertBehind p b).merge b n = (s.joinNext b n).setNext p b := by
        rw [hjoin, State.insertBehind, hn]
        exact s.setNext_merge (by omega) (by omega) (by omega)
      have hsize : ∀ c, (s.joinNext b n).heap.blocksize c =
          update (update s.heap.blocksize b (s.heap.blocksize b + s.heap.blocksize n)) n 0 c := by
        intro c
        rw [hjoin]
        rfl
      have hsb : (s.joinNext b n).heap.blocksize b = s.heap.blocksize b + s.heap.blocksize n := by
        rw [hsize, Function.update_of_ne (by omega), Function.update_self]
      have hsplit : f ++ p :: b :: n :: g = (f ++ [p]) ++ b :: n :: g := by simp
      rw [hsplit] at hfreed
      obtain ⟨bs', hnext⟩ := hfreed.merge hadj
      rw [hmerge] at hnext
      refine ⟨bs', g, List.sublist_cons_self n g, hnext, ?_, ?_, by omega⟩
      · intro c hc
        have hcn : c ≠ n ∧ c ≠ b := by
          rcases List.mem_append.mp hc with hc | hc
          · have := hfc c hc
            omega
          rcases List.mem_cons.mp hc with rfl | hc
          · omega
          · have := hng c hc
            omega
        rw [hsize, Function.update_of_ne hcn.1, Function.update_of_ne hcn.2]
      · intro c hc
        have := hng c hc
        omega
  · have hend := i.toLayout.end_lt (fun c hc => by simp [hc]) hsorted hb hg (by
      intro c hc
      rw [hu] at hadj
      cases g with
      | nil => simp at hc
      | cons n g =>
        simp only [List.head?_cons, Option.mem_def, Option.some.injEq] at hc
        rw [← hc]
        exact hadj)
    have hjoin := s.joinNext_apart hadj (by omega)
    have hsize : (s.joinNext b (s.heap.u p)).heap.blocksize = s.heap.blocksize := by
      rw [hjoin]
      rfl
    have hsplit : f ++ p :: b :: g = (f ++ [p]) ++ b :: g := by simp
    rw [hsplit, State.insertBehind, ← hjoin] at hfreed
    refine ⟨bs, g, List.Sublist.refl g, hfreed, fun c _ => by rw [hsize], ?_, ?_⟩
    · rwa [hsize]
    · rw [hsize]
      omega

/-- A block is put behind the free block `p`. -/
theorem insertAfter (i : PoolInv s mp unit bs (f ++ p :: g)) (hb : b ∈ bs) (hp : p < b)
    (hg : ∀ c ∈ g, b < c) :
    ∃ bs' fl', Freed s (s.insertAfter p b) mp unit b bs (f ++ p :: g) bs' fl' ∧
      Gaps (s.insertAfter p b).heap fl' := by
  obtain ⟨hpe, -, hfc, hne⟩ := i.around hb hp hg
  have hbb := i.bounds hb
  obtain ⟨bs', g', hsub, hj⟩ := i.joinedNext hb hp hg
  have hafter : s.insertAfter p b = (s.joinNext b (s.heap.u p)).joinPrev p b := rfl
  generalize s.joinNext b (s.heap.u p) = t at hj hafter
  have hsp : t.heap.blocksize p = s.heap.blocksize p := hj.sizes p (by simp)
  have hgaps : Gaps s.heap (f ++ p :: g') :=
    List.Pairwise.sublist ((List.Sublist.refl f).append (hsub.cons_cons p)) i.gaps
  by_cases hadj : p + s.heap.blocksize p = b
  · have heq : s.insertAfter p b = (t.setNext p b).merge p b := by
      rw [hafter, State.joinPrev_adjacent _ (by rw [hsp, hadj]) hj.limit,
        State.merge_setNext _ (by omega)]
    have hsize : ∀ c, (s.insertAfter p b).heap.blocksize c =
        update (update t.heap.blocksize p (t.heap.blocksize p + t.heap.blocksize b)) b 0 c := by
      intro c
      rw [heq]
      rfl
    have hfreed := hj.freed
    have hsplit : (f ++ [p]) ++ b :: g' = f ++ p :: b :: g' := by simp
    rw [hsplit] at hfreed
    obtain ⟨l, hprev⟩ := hfreed.merge (by
      have hkeep : (t.setNext p b).heap.blocksize p = t.heap.blocksize p := rfl
      rw [hkeep, hsp, hadj])
    rw [← heq] at hprev
    refine ⟨l, _, hprev, Gaps.insert (h := s.heap) (List.Pairwise.sublist (by simp) hgaps) ?_ hfc ?_⟩
    · intro c hc
      have hcne : c ≠ p ∧ c ≠ b := by
        refine hne c ?_
        rcases List.mem_append.mp hc with hc | hc
        · simp [hc]
        · simp [hsub.subset hc]
      rw [hsize, Function.update_of_ne hcne.2, Function.update_of_ne hcne.1]
      refine hj.sizes c ?_
      simp only [List.mem_append, List.mem_cons] at hc ⊢
      tauto
    · intro c hc
      have := hj.behind c hc
      rw [hsize, Function.update_of_ne (by omega), Function.update_self, hsp]
      omega
  · have heq : s.insertAfter p b = t.setNext p b := by
      rw [hafter, State.joinPrev_apart _ (by rwa [hsp]) (by rw [hsp]; omega)]
    have hfreed := hj.freed
    rw [← heq] at hfreed
    have hsize : (s.insertAfter p b).heap.blocksize = t.heap.blocksize := by
      rw [heq]
      rfl
    refine ⟨bs', _, hfreed, Gaps.insert (h := s.heap) (by simpa using hgaps) ?_ ?_ ?_⟩
    · intro c hc
      rw [hsize]
      exact hj.sizes c (by simpa using hc)
    · intro c hc
      rcases List.mem_append.mp hc with hc | hc
      · have := hfc c hc
        omega
      · rw [List.mem_singleton.mp hc]
        omega
    · rw [hsize]
      exact hj.behind

/-- A block is put at the beginning of the free list. -/
theorem insertFirst (i : PoolInv s mp unit bs g) (hb : b ∈ bs) (hg : ∀ c ∈ g, b < c) :
    ∃ bs' fl', Freed s (s.insertFirst mp b) mp unit b bs g bs' fl' ∧
      Gaps (s.insertFirst mp b).heap fl' := by
  have hbb := i.bounds hb
  have hhead := i.head_eq
  have hfreed := i.toLayout.freed_insertHead hb hg
  by_cases hadj : b + s.heap.blocksize b = g.headD 0
  · cases g with
    | nil =>
      simp only [List.headD_nil] at hadj
      omega
    | cons n g =>
      have hnb := i.bounds (i.free_mem n (by simp))
      have hng := (List.pairwise_cons.mp i.gaps).1
      have hadjn : b + s.heap.blocksize b = n := hadj
      have hheadn : (s.pools mp).poolFreeListPtr = n := hhead
      have heq : s.insertFirst mp b = (s.insertHead mp b).merge b n := by
        rw [State.insertFirst, hheadn, s.joinNext_adjacent hadjn (by omega)]
        simp only [State.insertHead, State.merge, State.setNext, State.setPool, hheadn,
          Function.update_idem, Function.update_of_ne (show n ≠ b by omega)]
      obtain ⟨l, hnext⟩ := (Freed.merge (f := []) hfreed hadjn)
      rw [← heq] at hnext
      have hsize : ∀ c, (s.insertFirst mp b).heap.blocksize c =
          update (update s.heap.blocksize b (s.heap.blocksize b + s.heap.blocksize n)) n 0 c := by
        intro c
        rw [heq]
        rfl
      refine ⟨l, _, hnext, Gaps.insert (h := s.heap) (f := []) (List.pairwise_cons.mp i.gaps).2 ?_
        (by simp) ?_⟩
      · intro c hc
        have h1 := hng c hc
        rw [hsize, Function.update_of_ne (by omega), Function.update_of_ne (by omega)]
      · intro c hc
        have h1 := hng c hc
        rw [hsize, Function.update_of_ne (by omega), Function.update_self]
        omega
  · have hend := i.toLayout.end_lt (fun c hc => hc) i.sorted hb hg (by
      intro c hc
      cases g with
      | nil => simp at hc
      | cons n g =>
        simp only [List.head?_cons, Option.mem_def, Option.some.injEq] at hc
        rw [← hc]
        exact hadj)
    have hne : b + s.heap.blocksize b ≠ (s.pools mp).poolFreeListPtr := by rwa [hhead]
    have heq : s.insertFirst mp b = s.insertHead mp b := by
      rw [State.insertFirst, s.joinNext_apart hne (by omega)]
      rfl
    rw [← heq] at hfreed
    have hsize : (s.insertFirst mp b).heap.blocksize = s.heap.blocksize := by
      rw [heq]
      rfl
    refine ⟨bs, _, hfreed, Gaps.insert (h := s.heap) (f := []) i.gaps (fun c _ => by rw [hsize])
      (by simp) ?_⟩
    rw [hsize]
    exact hend

/-! ## Whole calls -/

theorem insertFirst_pools (s : State) (mp b : ℕ) :
    ((s.insertFirst mp b).pools mp).highwater = (s.pools mp).highwater ∧
      ∀ m, ((s.insertFirst mp b).pools m).valid = (s.pools m).valid := by
  have hpools : (s.joinNext b (s.pools mp).poolFreeListPtr).pools = s.pools := s.joinNext_pools _ _
  simp only [State.insertFirst, State.setPool, hpools, Function.update_self, true_and]
  intro m
  by_cases hm : m = mp <;> simp [hm]

/-- A call of `_lwmem_free` has released the block `b`. -/
structure Released (s s' : State) (mp unit b : ℕ) (bs fl bs' fl' : List ℕ) : Prop
    extends Freed s s' mp unit b bs fl bs' fl' where
  gaps : Gaps s'.heap fl'
  valid : ∀ m, (s'.pools m).valid = (s.pools m).valid
  highwater : (s'.pools mp).highwater = (s.pools mp).highwater

theorem released_resetPointers {bs' fl' : List ℕ} (h : Freed s t mp unit b bs fl bs' fl')
    (hgaps : Gaps t.heap fl') (hvalid : ∀ m, (t.pools m).valid = (s.pools m).valid)
    (hmark : (t.pools mp).highwater = (s.pools mp).highwater) :
    Released s (t.resetPointers mp) mp unit b bs fl bs' fl' := by
  have hheap : (t.resetPointers mp).heap = t.heap := t.resetPointers_heap mp
  refine ⟨⟨h.layout.congr_frame hheap (t.resetPointers_frame mp mp), h.blocks, ?_, ?_, ?_⟩, ?_, ?_, ?_⟩
  · rw [hheap]
    exact h.used
  · rw [hheap]
    exact h.released
  · rw [hheap]
    exact h.stale
  · rwa [hheap]
  · intro m
    rw [(t.resetPointers_frame mp m).valid, hvalid m]
  · rw [State.resetPointers_highwater, hmark]

/-- The insertion of a block in use. -/
theorem freeRun_spec (i : PoolInv s mp unit bs fl) (hb : b ∈ bs) (hnot : b ∉ fl) :
    ∃ s' bs' fl', freeRun mp b maxSteps (freeLoop s mp b (s.pools mp).poolFreeListPtr) =
      some (.ok, s') ∧ Released s s' mp unit b bs fl bs' fl' := by
  have hlen := i.toLayout.length_lt
  obtain ⟨fuel, hfuel⟩ : ∃ n, maxSteps = n + 1 := ⟨maxSteps - 1, by omega⟩
  have hhead := i.head_eq
  by_cases hfirst : (s.pools mp).poolFreeListPtr = 0 ∨ b < (s.pools mp).poolFreeListPtr
  · have hg : ∀ c ∈ fl, b < c := by
      intro c hc
      cases fl with
      | nil => simp at hc
      | cons n g =>
        rw [hhead, List.headD_cons] at hfirst
        have hn0 : n ≠ 0 := by
          rintro rfl
          exact i.null_notMem (by simp)
        rcases List.mem_cons.mp hc with rfl | hc
        · omega
        · have := (List.pairwise_cons.mp i.sorted).1 c hc
          omega
    obtain ⟨bs', fl', hfreed, hgaps⟩ := i.insertFirst hb hg
    obtain ⟨hmark, hvalid⟩ := insertFirst_pools s mp b
    refine ⟨_, bs', fl', ?_, released_resetPointers hfreed hgaps hvalid hmark⟩
    rw [hfuel]
    simp only [freeLoop, if_pos hfirst]
    rfl
  · cases fl with
    | nil => exact absurd (Or.inl hhead) hfirst
    | cons n g =>
      have hheadn : (s.pools mp).poolFreeListPtr = n := hhead
      have hnb : n < b := by
        have hne : n ≠ b := by
          rintro rfl
          exact hnot (by simp)
        rw [hheadn] at hfirst
        omega
      simp only [List.length_cons] at hlen
      obtain ⟨f', p', g', he, hp', hg', hrun⟩ :=
        Layout.freeRun_loop (f := []) i.toLayout hnb hnot maxSteps (by omega)
      rw [List.nil_append] at he
      rw [he] at i
      obtain ⟨bs', fl', hfreed, hgaps⟩ := i.insertAfter hb hp' hg'
      rw [← he] at hfreed
      refine ⟨_, bs', fl', ?_, released_resetPointers hfreed hgaps ?_ ?_⟩
      · rw [hheadn]
        exact hrun
      · intro m
        rw [State.insertAfter_pools]
      · rw [State.insertAfter_pools]

/-- `_lwmem_free` of a block in use by its owner, or by any task if it is a system block. -/
theorem lwmemFree_spec (i : PoolInv s mp unit bs fl) (hb : b ∈ bs) (hnot : b ∉ fl) (active : ℕ) :
    (lwmemFree s active (userPtr b) = some (.notResourceOwner, s) ∧
      s.heap.taskNumber b ≠ active ∧ s.heap.taskNumber b ≠ systemTaskNumber) ∨
    ∃ s' bs' fl', lwmemFree s active (userPtr b) = some (.ok, s') ∧
      Released s s' mp unit b bs fl bs' fl' := by
  have hbb := i.bounds hb
  have hlt := i.limit
  have hlim : b + 16 < 2 ^ 32 := by omega
  have hpool := i.pool b hb
  have hvalid := i.valid
  simp only [lwmemFree, getLwmemblockPtr_userPtr hlim, if_neg (userPtr_ne_zero hlim), hpool, hvalid,
    ne_eq, not_true_eq_false, if_false]
  by_cases howner : s.heap.taskNumber b ≠ active ∧ s.heap.taskNumber b ≠ systemTaskNumber
  · left
    exact ⟨if_pos howner, howner⟩
  · right
    obtain ⟨s', bs', fl', hrun, hrel⟩ := i.freeRun_spec hb hnot
    exact ⟨s', bs', fl', (if_neg howner).trans hrun, hrel⟩

end PoolInv
end Mqx.Lwmem
