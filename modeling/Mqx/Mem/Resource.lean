import Mqx.Mem.FreeInvariant

/-!
# Blocks on the resource lists of tasks

The walk along a `MEMORY_RESOURCE_LIST`, and the edits of these lists: a block is
taken off the list of its owner when it is released, and put on the list of the new
owner when it is transferred.
-/

namespace Mqx.Mem

open PointerList

/-- `_mem_free` resets the type of the block before it looks for neighbours. -/
def Kernel.resetType (s : Kernel) (b : ℕ) : Kernel :=
  { s with heap := { s.heap with memType := Function.update s.heap.memType b 0 } }

/-- The checks of `_mem_free`: the pointer is to an allocated block that is on the
resource list of the task. -/
def Accepts (s : Kernel) (active memPtr : ℕ) : Prop :=
  memPtr ≠ 0 ∧ MemoryAligned (getMemblockPtr memPtr) ∧
    mqxMinMemoryStorageSize ≤ s.heap.blocksize (getMemblockPtr memPtr) ∧
    ¬s.heap.BlockIsFree (getMemblockPtr memPtr) ∧ s.heap.ValidChecksum (getMemblockPtr memPtr) ∧
    (resourceWalk s.heap memPtr maxSteps
      (s.memoryResourceList (resourceOwner s active (getMemblockPtr memPtr))) none).map Prod.fst =
        some memPtr

instance (s : Kernel) (active memPtr : ℕ) : Decidable (Accepts s active memPtr) :=
  inferInstanceAs (Decidable (_ ∧ _))

theorem userAreaPtr_ne_zero {b : ℕ} (h : b + 48 < 2 ^ 32) : userAreaPtr b ≠ 0 := by
  rw [userAreaPtr_eq h]
  omega

theorem userAreaPtr_inj {b c : ℕ} (hb : b + 48 < 2 ^ 32) (hc : c + 48 < 2 ^ 32)
    (h : userAreaPtr b = userAreaPtr c) : b = c := by
  rw [userAreaPtr_eq hb, userAreaPtr_eq hc] at h
  omega

section Walk

variable {h : Storeblocks} {l r : List ℕ} {b : ℕ}

/-- The walk stops at the block it looks for and knows the block before it. -/
theorem resourceWalk_mem {first : ℕ} (fuel : ℕ) (prev : Option ℕ)
    (hl : ResourceList h first (l ++ b :: r)) (hbound : ∀ c ∈ l ++ b :: r, c + 48 < 2 ^ 32)
    (hb : b ∉ l) (hfuel : l.length < fuel) :
    resourceWalk h (userAreaPtr b) fuel first prev = some (userAreaPtr b, l.getLast?.or prev) := by
  have hb48 := hbound b (by simp)
  induction l generalizing first fuel prev with
  | nil =>
    obtain ⟨fuel, rfl⟩ := Nat.exists_eq_succ_of_ne_zero (Nat.ne_of_gt hfuel)
    have hfirst : first = userAreaPtr b := hl.1
    simp [resourceWalk, hfirst]
  | cons c l ih =>
    obtain ⟨fuel, rfl⟩ := Nat.exists_eq_succ_of_ne_zero (Nat.ne_of_gt (Nat.zero_lt_of_lt hfuel))
    have hc48 := hbound c (by simp)
    have hfirst : first = userAreaPtr c := hl.1
    have hcb : userAreaPtr c ≠ userAreaPtr b := by
      intro he
      rw [userAreaPtr_inj hc48 hb48 he] at hb
      simp at hb
    subst hfirst
    have hrest := (ResourceList.cons hc48).mp hl
    have hwalk := ih fuel (some c) hrest
      (fun x hx => hbound x (by simp at hx ⊢; tauto)) (fun hm => hb (by simp [hm]))
      (by simpa using hfuel)
    rw [resourceWalk, if_pos ⟨userAreaPtr_ne_zero hc48, hcb⟩, getMemblockPtr_userAreaPtr hc48, hwalk]
    cases l with
    | nil => simp
    | cons d l => simp [List.getLast?_cons]

/-- The walk for a block that is not on the list ends with it. -/
theorem resourceWalk_notMem {first memPtr : ℕ} (fuel : ℕ) (prev : Option ℕ)
    (hl : ResourceList h first l) (hbound : ∀ c ∈ l, c + 48 < 2 ^ 32)
    (hm : ∀ c ∈ l, userAreaPtr c ≠ memPtr) (hfuel : l.length < fuel) :
    ∃ p, resourceWalk h memPtr fuel first prev = some (0, p) := by
  induction l generalizing first fuel prev with
  | nil =>
    obtain ⟨fuel, rfl⟩ := Nat.exists_eq_succ_of_ne_zero (Nat.ne_of_gt hfuel)
    have hfirst : first = 0 := hl
    exact ⟨prev, by simp [resourceWalk, hfirst]⟩
  | cons c l ih =>
    obtain ⟨fuel, rfl⟩ := Nat.exists_eq_succ_of_ne_zero (Nat.ne_of_gt (Nat.zero_lt_of_lt hfuel))
    have hc48 := hbound c (by simp)
    have hfirst : first = userAreaPtr c := hl.1
    subst hfirst
    obtain ⟨p, hp⟩ := ih fuel (some c) ((ResourceList.cons hc48).mp hl)
      (fun x hx => hbound x (by simp [hx])) (fun x hx => hm x (by simp [hx])) (by simpa using hfuel)
    refine ⟨p, ?_⟩
    rw [resourceWalk, if_pos ⟨userAreaPtr_ne_zero hc48, hm c (by simp)⟩,
      getMemblockPtr_userAreaPtr hc48, hp]

end Walk

namespace Layout

variable {s : Kernel} {mp b td : ℕ} {bs fl l r limbo stale : List ℕ} {rl : ℕ → List ℕ}

/-- A user pointer is found on the list of a task exactly if its block is listed. -/
theorem resourceWalk_cases (i : Layout s mp bs fl rl limbo stale) (memPtr td : ℕ) :
    (∃ b l r, rl td = l ++ b :: r ∧ memPtr = userAreaPtr b ∧ getMemblockPtr memPtr = b ∧
      resourceWalk s.heap memPtr maxSteps (s.memoryResourceList td) none =
        some (memPtr, l.getLast?)) ∨
    ((∀ c ∈ rl td, userAreaPtr c ≠ memPtr) ∧
      ∃ p, resourceWalk s.heap memPtr maxSteps (s.memoryResourceList td) none = some (0, p)) := by
  have hbound := i.res_bounds td
  have hlen := i.phys.length_lt (i.res_nodup td) fun b hb => (i.of_res hb).1
  by_cases hm : ∃ c ∈ rl td, userAreaPtr c = memPtr
  · obtain ⟨b, hb, rfl⟩ := hm
    obtain ⟨l, r, hlr⟩ := List.append_of_mem hb
    have hres := i.res td
    have hd := i.res_nodup td
    rw [hlr] at hres hbound hlen hd
    have hbl : b ∉ l := by grind
    refine Or.inl ⟨b, l, r, hlr, rfl, getMemblockPtr_userAreaPtr (hbound b (by simp)), ?_⟩
    have hlen' : l.length < maxSteps := by
      simp only [List.length_append] at hlen
      omega
    simpa using resourceWalk_mem maxSteps none hres hbound hbl hlen'
  · right
    have hm' : ∀ c ∈ rl td, userAreaPtr c ≠ memPtr := fun c hc he => hm ⟨c, hc, he⟩
    exact ⟨hm', resourceWalk_notMem maxSteps none (i.res td) hbound hm' (by omega)⟩

/-- The lists of all tasks after a block has been taken off one of them. -/
theorem res_setResourceLink (i : Layout s mp bs fl rl limbo stale) (hlr : rl td = l ++ b :: r) :
    ∃ nextblock, (s.setResourceLink td l.getLast? (s.heap.nextblock b)).heap =
        { s.heap with nextblock := nextblock } ∧
      (∀ c, c ∉ l → nextblock c = s.heap.nextblock c) ∧
      ∀ t, ResourceList { s.heap with nextblock := nextblock }
        ((s.setResourceLink td l.getLast? (s.heap.nextblock b)).memoryResourceList t)
        (Function.update rl td (l ++ r) t) := by
  have hres := i.res td
  have hbound := i.res_bounds td
  have hd := i.res_nodup td
  have htask := i.res_task td
  rw [hlr] at hres hbound hd htask
  have hb48 := hbound b (by simp)
  rcases List.eq_nil_or_concat l with rfl | ⟨l, p, rfl⟩
  · refine ⟨s.heap.nextblock, rfl, fun c _ => rfl, ?_⟩
    intro t
    by_cases ht : t = td
    · subst ht
      obtain ⟨h1, h2⟩ := hres
      simpa [Kernel.setResourceLink, ResourceList, getMemblockPtr_userAreaPtr hb48] using h2
    · simpa [Kernel.setResourceLink, ht, ResourceList] using i.res t
  · simp only [List.concat_eq_append, List.append_assoc, List.singleton_append] at *
    have hp48 := hbound p (by simp)
    obtain ⟨hl, hrest⟩ := (ResourceList.append_cons hp48).mp hres
    have hpb : s.heap.nextblock p = userAreaPtr b := hrest.1
    have hr : ResourceList s.heap (s.heap.nextblock b) r := by
      rw [hpb] at hrest
      exact (ResourceList.cons hb48).mp hrest
    have hpl : p ∉ l := by grind
    have hpr : p ∉ r := by grind
    refine ⟨Function.update s.heap.nextblock p (s.heap.nextblock b), by simp [Kernel.setResourceLink],
      ?_, ?_⟩
    · intro c hc
      exact Function.update_of_ne (by rintro rfl; simp at hc) _ _
    · intro t
      by_cases ht : t = td
      · subst ht
        simp only [Kernel.setResourceLink, Function.update_self, List.getLast?_concat]
        rw [ResourceList.append_cons hp48]
        refine ⟨hl.congr ?_, ?_⟩
        · intro u hu
          obtain ⟨c, hc, rfl⟩ := List.mem_map.mp hu
          simp only [getMemblockPtr_userAreaPtr (hbound c (by simp [hc]))]
          exact Function.update_of_ne (by rintro rfl; exact hpl hc) _ _
        · simp only [Function.update_self]
          refine hr.congr (fun c hc => hbound c (by simp [hc])) ?_
          intro c hc
          exact Function.update_of_ne (by rintro rfl; exact hpr hc) _ _
      · simp only [Kernel.setResourceLink, List.getLast?_concat, Function.update_of_ne ht]
        apply i.res_congr
        intro c hc
        refine Function.update_of_ne ?_ _ _
        rintro rfl
        exact ht ((i.res_task t c hc).symm.trans (htask c (by simp)))

/-- A block is taken off the list of its owner. -/
theorem setResourceLink (i : Layout s mp bs fl rl limbo stale) (hlr : rl td = l ++ b :: r) :
    Layout (s.setResourceLink td l.getLast? (s.heap.nextblock b)) mp bs fl
      (Function.update rl td (l ++ r)) (b :: limbo) stale := by
  obtain ⟨nextblock, hheap, hframe, hres⟩ := i.res_setResourceLink hlr
  have hpools : (s.setResourceLink td l.getLast? (s.heap.nextblock b)).pools = s.pools := by
    unfold Kernel.setResourceLink
    cases l.getLast? <;> rfl
  have hd := i.res_nodup td
  have hl : ∀ c ∈ l, ¬s.heap.BlockIsFree c := fun c hc =>
    (i.of_res (t := td) (by simp [hlr, hc])).2.2
  have hbres : b ∈ rl td := by simp [hlr]
  have hmem : ∀ t c, c ∈ Function.update rl td (l ++ r) t ↔ c ∈ rl t ∧ (t = td → c ≠ b) := by
    intro t c
    by_cases ht : t = td
    · subst ht
      rw [hlr] at hd ⊢
      simp only [Function.update_self]
      grind
    · simp [ht]
  have howned : ∀ c, ((∃ t, c ∈ Function.update rl td (l ++ r) t) ∨ c ∈ b :: limbo) ↔
      ((∃ t, c ∈ rl t) ∨ c ∈ limbo) := by
    intro c
    simp only [hmem, List.mem_cons]
    constructor
    · rintro (⟨t, ht, -⟩ | rfl | hc)
      · exact Or.inl ⟨t, ht⟩
      · exact Or.inl ⟨td, hbres⟩
      · exact Or.inr hc
    · rintro (⟨t, ht⟩ | hc)
      · by_cases hcb : c = b
        · exact Or.inr (Or.inl hcb)
        · exact Or.inl ⟨t, ht, fun _ => hcb⟩
      · exact Or.inr (Or.inr hc)
  constructor
  · rw [hpools, hheap]
    exact i.phys.congr fun c _ => ⟨rfl, rfl, rfl, rfl, rfl⟩
  · refine i.free.congr ?_ ?_ ?_
    · simp [Kernel.freeList, hpools]
    · intro c hc
      simp only [Kernel.freeList, hheap]
      exact hframe c fun hm => hl c hm (i.mem_of_free hc).2.1
    · intro c _
      simp [Kernel.freeList, hheap]
  · rw [hheap]
    exact i.mem_free
  · rw [hheap, hpools]
    exact i.end_used
  · rw [hheap]
    exact hres
  · intro t
    by_cases ht : t = td
    · subst ht
      rw [hlr] at hd
      simp only [Function.update_self]
      grind
    · simpa [ht] using i.res_nodup t
  · intro t c hc
    rw [hheap]
    exact i.res_task t c ((hmem t c).mp hc).1
  · exact List.nodup_cons.mpr ⟨fun hm => i.limbo_notMem b hm td hbres, i.limbo_nodup⟩
  · intro c hc t hct
    obtain ⟨hct, hne⟩ := (hmem t c).mp hct
    rcases List.mem_cons.mp hc with rfl | hc
    · exact hne ((i.res_task t c hct).symm.trans (i.res_task td c hbres)) rfl
    · exact i.limbo_notMem c hc t hct
  · intro c hc
    simp [i.stale_limbo c hc]
  · intro c
    rw [howned, hheap, hpools]
    exact i.owned c
  · intro c hc
    rw [hheap]
    exact i.pool c ((howned c).mp hc)

/-- Resetting the type of a block that is being released puts its checksum out of date. -/
theorem resetType (i : Layout s mp bs fl rl limbo stale) (hb : b ∈ limbo) :
    Layout (s.resetType b) mp bs fl rl limbo (b :: stale) := by
  constructor
  · refine ⟨i.phys.tiles, i.phys.back, i.phys.last, i.phys.size, i.phys.aligned, ?_,
      i.phys.start_pos, i.phys.limit⟩
    intro c hc hcs
    simp only [List.mem_cons, not_or] at hcs
    refine SameHeader.validChecksum ?_ (i.phys.sums c hc hcs.2)
    constructor <;> simp [Kernel.resetType, hcs.1]
  · exact i.free
  · exact i.mem_free
  · exact i.end_used
  · exact i.res
  · exact i.res_nodup
  · exact i.res_task
  · exact i.limbo_nodup
  · exact i.limbo_notMem
  · intro c hc
    rcases List.mem_cons.mp hc with rfl | hc
    · exact hb
    · exact i.stale_limbo c hc
  · exact i.owned
  · exact i.pool

end Layout

namespace PoolInv

variable {s : Kernel} {mp b next : ℕ} {bs f g fl limbo stale : List ℕ} {rl : ℕ → List ℕ}

/-- `_mem_free` rejects the pointer and changes nothing, or takes its block off the list
of the owner. -/
theorem memFreeBegin_cases (i : PoolInv s mp bs fl rl limbo stale) (active memPtr : ℕ) :
    (∃ code, code ≠ .ok ∧ memFreeBegin s active memPtr = some ⟨s, .returned code, []⟩) ∨
    (∃ b td l r, Accepts s active memPtr ∧ rl td = l ++ b :: r ∧ memPtr = userAreaPtr b ∧
      getMemblockPtr memPtr = b ∧
      memFreeBegin s active memPtr =
        some (memFreeUnowned (s.setResourceLink td l.getLast? (s.heap.nextblock b)) mp b)) := by
  unfold memFreeBegin
  dsimp only
  split_ifs with h1 h2 h3
  · exact Or.inl ⟨.invalidPointer, by decide, rfl⟩
  · exact Or.inl ⟨.invalidPointer, by decide, rfl⟩
  · rcases i.resourceWalk_cases memPtr (resourceOwner s active (getMemblockPtr memPtr)) with
      ⟨b, l, r, hlr, hmem, hget, hwalk⟩ | ⟨-, p, hwalk⟩
    · right
      simp only [not_or, not_not, Nat.not_lt] at h2
      refine ⟨b, _, l, r, ⟨h1, h2.1, h2.2.1, h2.2.2, h3, by rw [hwalk]; rfl⟩, hlr, hmem, hget, ?_⟩
      have hpool : s.heap.memPoolPtr b = mp := i.pool b (Or.inl ⟨_, by rw [hlr]; simp⟩)
      rw [hwalk]
      simp only [h1, if_false, hget, hpool]
    · left
      refine ⟨.notResourceOwner, by decide, ?_⟩
      rw [hwalk]
      simp
  · exact Or.inl ⟨.invalidChecksum, by decide, rfl⟩

/-- `_mem_free` after the block has left the list of its owner. -/
theorem memFreeUnowned_cases (i : PoolInv (s.resetType b) mp bs fl rl limbo stale)
    (hb : b ∈ limbo) :
    (¬NoFreeNeighbour (s.resetType b) b ∧ ∃ s' fl',
      memFreeUnowned s mp b = ⟨s', .returned .ok, []⟩ ∧
      Coalesced (s.resetType b) s' mp fl rl (limbo.erase b) (stale.filter (· ≠ b)) fl') ∨
    (NoFreeNeighbour (s.resetType b) b ∧ fl = [] ∧ ∃ s',
      memFreeUnowned s mp b = ⟨s', .returned .ok, []⟩ ∧
      Inserted (s.resetType b) s' mp b [] rl (limbo.erase b) (stale.filter (· ≠ b)) [b]) ∨
    (NoFreeNeighbour (s.resetType b) b ∧ ∃ next g, fl = next :: g ∧
      memFreeUnowned s mp b = memFreeLoop (s.resetType b) mp b next) := by
  have hun : memFreeUnowned s mp b =
      if ((s.resetType b).memCheckCoalesceInternal b).2 then
        ⟨((s.resetType b).memCheckCoalesceInternal b).1, .returned .ok, []⟩
      else if (((s.resetType b).memCheckCoalesceInternal b).1.pools mp).poolFreeListPtr ≠ 0 then
        memFreeLoop ((s.resetType b).memCheckCoalesceInternal b).1 mp b
          (((s.resetType b).memCheckCoalesceInternal b).1.pools mp).poolFreeListPtr
      else ⟨((s.resetType b).memCheckCoalesceInternal b).1.insertFree mp b
        (((s.resetType b).memCheckCoalesceInternal b).1.pools mp).poolFreeListPtr,
          .returned .ok, []⟩ := rfl
  by_cases hn : NoFreeNeighbour (s.resetType b) b
  · right
    rw [coalesce_false hn] at hun
    simp only [Bool.false_eq_true, if_false] at hun
    have hhead : ((s.resetType b).pools mp).poolFreeListPtr = fl.headD 0 := i.free.head_eq
    cases fl with
    | nil =>
      left
      obtain ⟨h1, h2⟩ := insertedList_nil i.free
        (i.phys.pos (i.of_limbo hb).1).ne'
      simp only [hhead, List.headD_nil, ne_eq, not_true, if_false] at hun
      exact ⟨hn, rfl, _, hun, i.insertFree hb hn h1 (by simp) h2⟩
    | cons next g =>
      right
      have hn0 : next ≠ 0 := by
        rintro rfl
        exact i.free.null_notMem (by simp)
      simp only [hhead, List.headD_cons, ne_eq, hn0, not_false_eq_true, if_true] at hun
      exact ⟨hn, next, g, rfl, hun⟩
  · left
    obtain ⟨s', fl', he, hc⟩ := i.coalesce_true hb hn
    rw [he] at hun
    simp only [if_true] at hun
    exact ⟨hn, s', fl', hun, hc⟩

/-- The pointer with which the insertion goes on after a window. -/
def insertPtr (s : Kernel) (mp next : ℕ) : ℕ :=
  if (s.pools mp).poolFreeCurrentBlock ≠ next then (s.pools mp).poolFreeListPtr else next

/-- `_mem_free` after a window. -/
theorem memFreeResume_cases (i : PoolInv s mp bs fl rl limbo stale) (hb : b ∈ limbo)
    (next : ℕ) :
    (¬NoFreeNeighbour s b ∧ ∃ s' fl', memFreeResume s mp b next = ⟨s', .returned .ok, []⟩ ∧
      Coalesced s s' mp fl rl (limbo.erase b) (stale.filter (· ≠ b)) fl') ∨
    (NoFreeNeighbour s b ∧
      memFreeResume s mp b next = memFreeLoop s mp b (insertPtr s mp next)) := by
  by_cases hn : NoFreeNeighbour s b
  · right
    refine ⟨hn, ?_⟩
    unfold memFreeResume
    simp only [coalesce_false hn, Bool.false_eq_true, if_false]
    rfl
  · left
    obtain ⟨s', fl', he, hc⟩ := i.coalesce_true hb hn
    refine ⟨hn, s', fl', ?_, hc⟩
    unfold memFreeResume
    simp only [he, if_true]

end PoolInv
end Mqx.Mem
