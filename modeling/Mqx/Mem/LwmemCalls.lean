import Mqx.Mem.LwmemInvariant

/-!
# Calls of the lightweight allocator

The search visits the free blocks in order and takes the first one that fits. What is taken is
cut out of that block by edits of the layout, and a release puts the block on the list and
joins it with its free neighbours, so that both leave the pool well formed.
-/

namespace Mqx.Lwmem

open PointerList
open Function (update)
open Mem (add32_of_lt sub32_of_le)

/-! ## The search -/

/-- The state behind the window that is opened at a block. -/
def State.atWindow (s : State) (mp block : ℕ) : State :=
  s.setPool mp { s.pools mp with poolAllocPtr := block }

/-- Whether the request fits depends on the headers only. -/
def Request.ReadsHeap (r : Request) : Prop :=
  ∀ s s' : State, s'.heap = s.heap → ∀ b, r.fits s' b ↔ r.fits s b

theorem State.resetPointers_atWindow (s : State) (mp b : ℕ) :
    (s.atWindow mp b).resetPointers mp = s.resetPointers mp := by
  simp [State.resetPointers, State.atWindow, State.setPool]

theorem State.atWindow_atWindow (s : State) (mp b c : ℕ) :
    (s.atWindow mp b).atWindow mp c = s.atWindow mp c := by
  simp [State.atWindow, State.setPool]

theorem Layout.atWindow {s : State} {mp unit : ℕ} {bs fl : List ℕ} (i : Layout s mp unit bs fl) (b : ℕ) :
    Layout (s.atWindow mp b) mp unit bs fl := by
  refine i.congr ?_ ?_ ?_ ?_ (fun _ _ => rfl) (fun _ _ => rfl) (fun _ _ => rfl)
  all_goals simp [State.atWindow, State.setPool]

theorem allocWindow_eq {s : State} {mp b prev : ℕ} (hb : b ≠ 0) :
    allocWindow s mp b prev = (s.atWindow mp b, .window b prev) := by
  rw [allocWindow, if_neg hb]
  rfl

/-- Nothing has happened in the window. -/
theorem allocResume_atWindow {r : Request} {s : State} {mp b prev : ℕ} (hb : b ≠ 0) :
    allocResume r (s.atWindow mp b) mp b prev =
      if r.fits (s.atWindow mp b) b then
        allocReturn (r.take (s.atWindow mp b) b prev) mp (r.ptr b, .ok)
      else allocWindow (s.atWindow mp b) mp (s.heap.u b) b := by
  have hptr : ((s.atWindow mp b).pools mp).poolAllocPtr = b := by
    simp [State.atWindow, State.setPool]
  have hu : (s.atWindow mp b).heap.u b = s.heap.u b := rfl
  simp only [allocResume, hptr, hu, ne_eq, not_true_eq_false, if_false, if_neg hb]

/-- What an allocation returns: no free block fits, or the first one that fits is taken. -/
inductive Outcome (r : Request) (s : State) (mp : ℕ) (f g : List ℕ) (a : AllocResult)
    (s' : State) : Prop
  | none (hnone : ∀ c ∈ g, ¬r.fits s c) (hres : a = (0, .outOfMemory))
      (hstate : s' = s.resetPointers mp)
  | first (pre post : List ℕ) (b prev : ℕ) (hg : g = pre ++ b :: post)
      (hskip : ∀ c ∈ pre, ¬r.fits s c) (hfits : r.fits s b)
      (hprev : f ++ pre ≠ [] → (f ++ pre).getLast? = some prev) (hres : a = (r.ptr b, .ok))
      (hstate : s' = (r.take (s.atWindow mp b) b prev).resetPointers mp)

/-- The search from a free block on; `f` are the blocks that it has passed. -/
theorem allocRun_window {r : Request} (hr : r.ReadsHeap) {s : State} {mp unit prev : ℕ}
    {bs f g : List ℕ} (i : Layout s mp unit bs (f ++ g)) (hprev : f ≠ [] → f.getLast? = some prev)
    (fuel : ℕ) (hfuel : g.length + 1 < fuel) :
    ∃ a s', allocRun r mp fuel (allocWindow s mp (g.headD 0) prev) = some (a, s') ∧
      Outcome r s mp f g a s' := by
  induction g generalizing f s prev fuel with
  | nil =>
    obtain ⟨fuel, rfl⟩ : ∃ n, fuel = n + 1 := ⟨fuel - 1, by omega⟩
    exact ⟨_, _, rfl, .none (by simp) rfl rfl⟩
  | cons b g ih =>
    obtain ⟨fuel, rfl⟩ : ∃ n, fuel = n + 2 := ⟨fuel - 2, by simp at hfuel; omega⟩
    have hb : b ≠ 0 := by
      rintro rfl
      exact i.null_notMem (by simp)
    have hfit : r.fits (s.atWindow mp b) b ↔ r.fits s b := hr s (s.atWindow mp b) rfl b
    have hstep : allocRun r mp (fuel + 2) (allocWindow s mp ((b :: g).headD 0) prev) =
        allocRun r mp (fuel + 1) (allocResume r (s.atWindow mp b) mp b prev) := by
      rw [List.headD_cons, allocWindow_eq hb]
      rfl
    rw [hstep, allocResume_atWindow hb]
    by_cases hfits : r.fits s b
    · rw [if_pos (hfit.mpr hfits)]
      refine ⟨_, _, rfl, .first [] g b prev rfl (by simp) hfits ?_ rfl rfl⟩
      simpa using hprev
    · rw [if_neg fun h => hfits (hfit.mp h), i.next_eq]
      have hsplit : f ++ b :: g = (f ++ [b]) ++ g := by simp
      obtain ⟨a, s', hrun, hout⟩ : ∃ a s', allocRun r mp (fuel + 1)
          (allocWindow (s.atWindow mp b) mp (g.headD 0) b) = some (a, s') ∧
          Outcome r (s.atWindow mp b) mp (f ++ [b]) g a s' :=
        ih (hsplit ▸ i.atWindow b) (by simp) (fuel + 1) (by simp at hfuel; omega)
      refine ⟨a, s', hrun, ?_⟩
      have hread : ∀ c, r.fits (s.atWindow mp b) c ↔ r.fits s c := hr s (s.atWindow mp b) rfl
      cases hout with
      | none hnone hres hstate =>
        refine .none ?_ hres ?_
        · intro c hc
          rcases List.mem_cons.mp hc with rfl | hc
          · exact hfits
          · exact fun h => hnone c hc ((hread c).mpr h)
        · rw [hstate, State.resetPointers_atWindow]
      | first pre post c prev' hg hskip hc hprev' hres hstate =>
        refine .first (b :: pre) post c prev' (by rw [hg]; rfl) ?_ ((hread c).mp hc) ?_ hres ?_
        · intro d hd
          rcases List.mem_cons.mp hd with rfl | hd
          · exact hfits
          · exact fun h => hskip d hd ((hread d).mpr h)
        · intro _
          simpa using hprev' (by simp)
        · rw [hstate, State.atWindow_atWindow]

/-- A search in a well formed pool ends. -/
theorem Layout.alloc_cases {r : Request} (hr : r.ReadsHeap) {s : State} {mp unit : ℕ} {bs fl : List ℕ}
    (i : Layout s mp unit bs fl) :
    ∃ a s', alloc r s mp = some (a, s') ∧ Outcome r s mp [] fl a s' := by
  have hlen := i.length_lt
  have hvalid := i.valid
  simp only [alloc, hvalid, ne_eq, not_true_eq_false, if_false, i.head_eq]
  exact allocRun_window (f := []) hr i (by simp) maxSteps (by omega)

theorem allocRequest_readsHeap (req td mp : ℕ) : (allocRequest req td mp).ReadsHeap := by
  intro s s' h b
  simp only [allocRequest, h]

theorem allocAtRequest_readsHeap (req addr td mp : ℕ) :
    (allocAtRequest req addr td mp).ReadsHeap := by
  intro s s' h b
  simp only [allocAtRequest, h]

theorem allocAlignRequest_readsHeap (req align td mp : ℕ) :
    (allocAlignRequest req align td mp).ReadsHeap := by
  intro s s' h b
  simp only [allocAlignRequest, h]

/-! ## What is taken -/

/-- The link of a block that is taken does not matter. -/
theorem update_overwritten (u : ℕ → ℕ) (b n prev td m : ℕ) :
    update (update (update u b n) prev m) b td = update (update u prev m) b td := by
  funext c
  by_cases hb : c = b
  · simp [hb]
  · by_cases hp : c = prev <;> simp [hb, hp, Function.update_apply]

namespace State

variable (s : State) {td mp b n q prev req : ℕ}

theorem split_u_self : (s.split mp b n).heap.u b = n := Function.update_self ..

theorem split_u_new (hn : n ≠ b) : (s.split mp b n).heap.u n = s.heap.u b := by
  simp [split, addRest, setSize, setNext, hn]

theorem split_pools : (s.split mp b n).pools = s.pools := rfl

/-- The front of the block is taken, the rest stays on the list. -/
theorem allocBlock_rest (hreq : req + 16 ≤ s.heap.blocksize b)
    (hend : b + s.heap.blocksize b < 2 ^ 32) :
    s.allocBlock td mp b prev req =
      ((s.split mp b (b + req)).take td mp b prev).rememberHighwater mp b := by
  have hsub : sub32 (s.heap.blocksize b) req = s.heap.blocksize b - req :=
    sub32_of_le (by omega) (by omega)
  have hadd : add32 b req = b + req := add32_of_lt (by omega)
  have hrest : b + s.heap.blocksize b - (b + req) = s.heap.blocksize b - req := by omega
  have hlt : lwmemMinMemoryStorageSize ≤ s.heap.blocksize b - req := by
    rw [minSize_eq]
    omega
  have hfront : b + req - b = req := by omega
  simp only [allocBlock, hsub, hadd, if_pos hlt, take, split_u_self]
  congr 1
  simp only [split, hrest, hfront]
  by_cases hhead : b = (s.pools mp).poolFreeListPtr
  · simp [unlink, addRest, setSize, setNext, markUsed, setPool, ← hhead]
  · simp [unlink, addRest, setSize, setNext, markUsed, hhead, update_overwritten]

/-- The whole block is taken. -/
theorem allocBlock_whole (hle : req ≤ s.heap.blocksize b) (hreq : s.heap.blocksize b < req + 16)
    (hend : s.heap.blocksize b < 2 ^ 32) :
    s.allocBlock td mp b prev req = (s.take td mp b prev).rememberHighwater mp b := by
  have hsub : sub32 (s.heap.blocksize b) req = s.heap.blocksize b - req := sub32_of_le hle hend
  have hlt : ¬lwmemMinMemoryStorageSize ≤ s.heap.blocksize b - req := by
    rw [minSize_eq]
    omega
  simp only [allocBlock, hsub, if_neg hlt, take]

theorem split_blocksize : (s.split mp b n).heap.blocksize =
    update (update s.heap.blocksize n (b + s.heap.blocksize b - n)) b (n - b) := rfl

theorem take_blocksize : (s.take td mp b prev).heap.blocksize = s.heap.blocksize := by
  simp only [take, unlink]
  split_ifs <;> rfl

theorem unlink_of_ne_head (next : ℕ) (h : b ≠ (s.pools mp).poolFreeListPtr) :
    s.unlink mp b prev next = s.setNext prev next := by
  simp only [unlink, if_neg h]

theorem take_of_ne_head (h : b ≠ (s.pools mp).poolFreeListPtr) :
    s.take td mp b prev = (s.setNext prev (s.heap.u b)).markUsed td mp b := by
  rw [take, unlink_of_ne_head s _ h]

/-- A block in the middle is taken, its neighbours stay on the list. -/
theorem allocBlockAt_rest {addr : ℕ} (hq : getLwmemblockPtr addr = q) (hn : q + req = n)
    (hlo : b + 16 ≤ q) (hreq : 0 < req) (hhi : n + 16 ≤ b + s.heap.blocksize b)
    (hend : b + s.heap.blocksize b < 2 ^ 32) (hhead : q ≠ (s.pools mp).poolFreeListPtr) :
    s.allocBlockAt td mp b addr req =
      (((s.split mp b q).split mp q n).take td mp q b).rememberHighwater mp b := by
  have hfree : sub32 q b = q - b := sub32_of_le (by omega) (by omega)
  have hsub : sub32 (s.heap.blocksize b) req = s.heap.blocksize b - req :=
    sub32_of_le (by omega) (by omega)
  have hrest : sub32 (s.heap.blocksize b - req) (q - b) = b + s.heap.blocksize b - n := by
    rw [sub32_of_le (by omega) (by omega)]
    omega
  have hadd : add32 q req = n := (add32_of_lt (by omega)).trans hn
  have hlt : lwmemMinMemoryStorageSize ≤ b + s.heap.blocksize b - n := by
    rw [minSize_eq]
    omega
  have hcut : q ≠ (((s.split mp b q).split mp q n).pools mp).poolFreeListPtr := hhead
  simp only [allocBlockAt, hq, hfree, hsub, hrest, hadd, if_pos hlt]
  rw [take_of_ne_head _ hcut]
  refine congrArg (fun h => State.rememberHighwater ⟨h, s.pools⟩ mp b) ?_
  simp only [split, addRest, setSize, setNext, Blocks.mk.injEq]
  refine ⟨?_, ?_, ?_⟩
  all_goals
    funext c
    grind [Function.update_apply]

/-- The end of the block is taken. -/
theorem allocBlockAt_whole {addr : ℕ} (hq : getLwmemblockPtr addr = q)
    (hlo : b + 16 ≤ q) (hle : q + req ≤ b + s.heap.blocksize b)
    (hhi : b + s.heap.blocksize b < q + req + 16)
    (hend : b + s.heap.blocksize b < 2 ^ 32) (hhead : q ≠ (s.pools mp).poolFreeListPtr) :
    s.allocBlockAt td mp b addr req =
      ((s.split mp b q).take td mp q b).rememberHighwater mp b := by
  have hfree : sub32 q b = q - b := sub32_of_le (by omega) (by omega)
  have hsub : sub32 (s.heap.blocksize b) req = s.heap.blocksize b - req :=
    sub32_of_le (by omega) (by omega)
  have hrest : sub32 (s.heap.blocksize b - req) (q - b) = b + s.heap.blocksize b - (q + req) := by
    rw [sub32_of_le (by omega) (by omega)]
    omega
  have hadd : add32 req (b + s.heap.blocksize b - (q + req)) = b + s.heap.blocksize b - q := by
    rw [add32_of_lt (by omega)]
    omega
  have hlt : ¬lwmemMinMemoryStorageSize ≤ b + s.heap.blocksize b - (q + req) := by
    rw [minSize_eq]
    omega
  have hcut : q ≠ ((s.split mp b q).pools mp).poolFreeListPtr := hhead
  simp only [allocBlockAt, hq, hfree, hsub, hrest, hadd, if_neg hlt]
  rw [take_of_ne_head _ hcut]
  refine congrArg (fun h => State.rememberHighwater ⟨h, s.pools⟩ mp b) ?_
  simp only [split, addRest, setSize, setNext, Blocks.mk.injEq]
  refine ⟨?_, ?_, ?_⟩
  all_goals
    funext c
    grind [Function.update_apply]

theorem allocBlockAlign_rest {align : ℕ} (hq : b + alignShift align b = q) (hn : q + req = n)
    (hlo : b < q) (hreq : 0 < req) (hhi : n + 16 ≤ b + s.heap.blocksize b)
    (hend : b + s.heap.blocksize b < 2 ^ 32) (hhead : q ≠ (s.pools mp).poolFreeListPtr) :
    s.allocBlockAlign td mp b req align =
      (((s.split mp b q).split mp q n).take td mp q b).rememberHighwater mp q := by
  have hshift : alignShift align b = q - b := by omega
  have hblock : add32 b (q - b) = q := by
    rw [add32_of_lt (by omega)]
    omega
  have hsub : sub32 (s.heap.blocksize b) (q - b) = b + s.heap.blocksize b - q := by
    rw [sub32_of_le (by omega) (by omega)]
    omega
  have hrest : sub32 (b + s.heap.blocksize b - q) req = b + s.heap.blocksize b - n := by
    rw [sub32_of_le (by omega) (by omega)]
    omega
  have hadd : add32 q req = n := (add32_of_lt (by omega)).trans hn
  have hlt : lwmemMinMemoryStorageSize ≤ b + s.heap.blocksize b - n := by
    rw [minSize_eq]
    omega
  have hcut : q ≠ (((s.split mp b q).split mp q n).pools mp).poolFreeListPtr := hhead
  simp only [allocBlockAlign, hshift, hblock, hsub, hrest, hadd, if_pos hlt]
  rw [take_of_ne_head _ hcut, unlink_of_ne_head _ _ (by exact hhead)]
  refine congrArg (fun h => State.rememberHighwater ⟨h, s.pools⟩ mp q) ?_
  simp only [split, addRest, setSize, setNext, Blocks.mk.injEq]
  refine ⟨?_, ?_, ?_⟩
  all_goals
    funext c
    grind [Function.update_apply]

theorem allocBlockAlign_whole {align : ℕ} (hq : b + alignShift align b = q) (hlo : b < q)
    (hle : q + req ≤ b + s.heap.blocksize b) (hhi : b + s.heap.blocksize b < q + req + 16)
    (hend : b + s.heap.blocksize b < 2 ^ 32) (hhead : q ≠ (s.pools mp).poolFreeListPtr) :
    s.allocBlockAlign td mp b req align =
      ((s.split mp b q).take td mp q b).rememberHighwater mp q := by
  have hshift : alignShift align b = q - b := by omega
  have hblock : add32 b (q - b) = q := by
    rw [add32_of_lt (by omega)]
    omega
  have hsub : sub32 (s.heap.blocksize b) (q - b) = b + s.heap.blocksize b - q := by
    rw [sub32_of_le (by omega) (by omega)]
    omega
  have hrest : sub32 (b + s.heap.blocksize b - q) req = b + s.heap.blocksize b - (q + req) := by
    rw [sub32_of_le (by omega) (by omega)]
    omega
  have hlt : ¬lwmemMinMemoryStorageSize ≤ b + s.heap.blocksize b - (q + req) := by
    rw [minSize_eq]
    omega
  have hcut : q ≠ ((s.split mp b q).pools mp).poolFreeListPtr := hhead
  simp only [allocBlockAlign, hshift, hblock, hsub, hrest, if_neg hlt]
  rw [take_of_ne_head _ hcut, unlink_of_ne_head _ _ (by exact hhead)]
  refine congrArg (fun h => State.rememberHighwater ⟨h, s.pools⟩ mp q) ?_
  simp only [split, addRest, setSize, setNext, Blocks.mk.injEq]
  refine ⟨?_, ?_, ?_⟩
  all_goals
    funext c
    grind [Function.update_apply]

end State
end Mqx.Lwmem
