import Mqx.Mem.PartitionStats

/-!
# Runs of the partitions

A run is a list of calls, with the steps of the growths that are under way between them. The
statistics are right as long as no block is taken while blocks that do not exist are counted.
-/

namespace Mqx.Mem.Partition

open Function (update)
open PointerList

namespace State

variable {s s' : State} {p q b t id owner total : ℕ}

/-- One round of the loop that adds blocks. -/
theorem Good.added {area : PartpoolBlock} {left : ℕ} {o memory : Option ℕ} (h : s.Good)
    (hg : s.growing t = some (.adding p area b (left + 1) o)) :
    Quiet s (s.resume t memory).1 := by
  have hgi := h.inv.growth t _ hg
  have hp : p ∈ s.partitions := hgi.part
  have hc := h.counted p hp
  have hle := weight_le_pending (s := s) (p := p) hgi.task
  have hweight : Growth.weight p (s.growing t) = left + 1 := by
    rw [hg]
    simp only [Growth.weight, Growth.part, Growth.pending, if_true]
  simp only [Counted] at hc
  have hinv := h.inv.addBlock hg (by omega)
  have hsum := h.inv.inUse_add hp
  have hsum' := hinv.inUse_add (p := p) hp
  have hmade : (s.addBlock p b).made p = s.made p ++ [b] := Function.update_self _ _ _
  have hpool : (s.addBlock p b).partpool p =
      { s.partpool p with freeList := b, available := add32 (s.partpool p).available 1 } :=
    Function.update_self _ _ _
  have hav : add32 (s.partpool p).available 1 = (s.partpool p).available + 1 :=
    add32_one (by omega)
  have hother : ∀ r, r ≠ p → (s.addBlock p b).partpool r = s.partpool r ∧
      (s.addBlock p b).made r = s.made r :=
    fun r hr => ⟨Function.update_of_ne hr _ _, Function.update_of_ne hr _ _⟩
  have hfixed : ∀ r, ((s.addBlock p b).partpool r).maximumBlocks = (s.partpool r).maximumBlocks ∧
      ((s.addBlock p b).partpool r).partitionType = (s.partpool r).partitionType ∧
      ((s.addBlock p b).partpool r).maxBlocksUsed = (s.partpool r).maxBlocksUsed ∧
      ((s.addBlock p b).partpool r).totalBlocks = (s.partpool r).totalBlocks := by
    intro r
    by_cases hr : r = p
    · rw [hr, hpool]
      exact ⟨rfl, rfl, rfl, rfl⟩
    · rw [(hother r hr).1]
      exact ⟨rfl, rfl, rfl, rfl⟩
  simp only [State.resume, hg]
  have huse : ∀ r ∈ s.partitions, (s.addBlock p b).inUse r ≤ s.inUse r := by
    intro r hr
    by_cases hrp : r = p
    · subst hrp
      change (s.addBlock r b).inUse r + ((s.addBlock r b).partpool r).available =
        ((s.addBlock r b).made r).length at hsum'
      rw [hmade, hpool, List.length_append, List.length_singleton] at hsum'
      change (s.addBlock r b).inUse r + add32 (s.partpool r).available 1 = _ at hsum'
      omega
    · simp only [inUse]
      rw [(hother r hrp).2]
      refine le_of_eq (List.countP_congr fun c hcm => ?_)
      have hne : c ≠ b := by
        rintro rfl
        exact (hgi.fresh c List.mem_cons_self).2.2 r hr hcm
      have hblock : (s.addBlock p b).block c = s.block c := Function.update_of_ne hne _ _
      rw [decide_eq_true_eq, decide_eq_true_eq]
      simp only [Allocated, hblock]
  exact {
    good := {
      inv := hinv
      counted := by
        intro r hr
        have hsum := pending_setGrowing (s := s) (p := r) hgi.task
          (some (.adding p area (add32 b (s.partpool p).blockSize) left o))
        have hcr := h.counted r hr
        simp only [Counted] at hcr ⊢
        change ((s.addBlock p b).made r).length + (s.setGrowing t
            (some (.adding p area (add32 b (s.partpool p).blockSize) left o))).pending r ≤
            ((s.addBlock p b).partpool r).totalBlocks ∧
          ((s.addBlock p b).partpool r).totalBlocks < 2 ^ 32
        rw [(hfixed r).2.2.2]
        by_cases hrp : r = p
        · subst hrp
          rw [hmade, List.length_append, List.length_singleton]
          rw [hweight] at hsum
          simp only [Growth.weight, Growth.part, Growth.pending, if_true] at hsum
          exact ⟨by omega, hcr.2⟩
        · rw [(hother r hrp).2]
          have hold : Growth.weight r (s.growing t) = 0 := by
            refine weight_of_ne (p := p) ?_ hrp
            rw [hg]
            rintro x ⟨⟩
            rfl
          have hnew : Growth.weight r
              (some (.adding p area (add32 b (s.partpool p).blockSize) left o)) = 0 := by
            refine weight_of_ne (p := p) ?_ hrp
            rintro x ⟨⟩
            rfl
          rw [hold, hnew] at hsum
          exact ⟨by omega, hcr.2⟩
      sized := by
        intro r hr
        change 0 < ((s.addBlock p b).partpool r).blockSize ∧
          ((s.addBlock p b).partpool r).maximumBlocks < 2 ^ 32
        rw [addBlock_blockSize, (hfixed r).1]
        exact h.sized r hr
      used := by
        intro r hr
        change (s.addBlock p b).inUse r ≤ ((s.addBlock p b).partpool r).maxBlocksUsed
        rw [(hfixed r).2.2.1]
        exact (huse r hr).trans (h.used r hr)
      caller := by
        intro t' x hx
        change update s.growing t _ t' = some x at hx
        have hold : s.Caller t' x := by
          by_cases hne : t' = t
          · rw [hne] at hx ⊢
            rw [Function.update_self] at hx
            obtain rfl := Option.some.inj hx
            have hcaller := h.caller t _ hg
            exact ⟨hcaller.1, hcaller.2⟩
          · rw [Function.update_of_ne hne] at hx
            exact h.caller t' x hx
        refine ⟨hold.1, fun ho => ?_⟩
        change ((s.addBlock p b).partpool x.part).partitionType = .static
        rw [(hfixed x.part).2.1]
        exact hold.2 ho }
    partitions := rfl
    maximumBlocks := fun r => (hfixed r).1
    limited := by
      intro r hl
      simp only [Limited]
      change ((s.addBlock p b).partpool r).maximumBlocks ≠ 0 →
        ((s.addBlock p b).partpool r).partitionType = .dynamic ∧
        ((s.addBlock p b).partpool r).totalBlocks ≤ ((s.addBlock p b).partpool r).maximumBlocks
      rw [(hfixed r).1, (hfixed r).2.1, (hfixed r).2.2.2]
      exact hl
    maxBlocksUsed := fun r => (hfixed r).2.2.1
    inUse := huse }

/-- The area is complete and goes behind `POOL`. -/
theorem Good.linked {area : PartpoolBlock} {o memory : Option ℕ} (h : s.Good)
    (hg : s.growing t = some (.adding p area b 0 o)) : Quiet s (s.resume t memory).1 := by
  have hgi := h.inv.growth t _ hg
  have hp : p ∈ s.partitions := hgi.part
  have harea := hgi.area p area b 0 o rfl
  have hcomplete : s.AreaOf p area :=
    ⟨harea.1, fun c hc => (harea.2 c hc).resolve_right List.not_mem_nil⟩
  have hlink := h.inv.linkArea hp hcomplete
  have hother : ∀ r, r ≠ p → (s.linkArea p area).partpool r = s.partpool r :=
    fun r hr => Function.update_of_ne hr _ _
  have hself : (s.linkArea p area).partpool p =
      { s.partpool p with extensions := area :: (s.partpool p).extensions } :=
    Function.update_self _ _ _
  have hfixed : ∀ r, ((s.linkArea p area).partpool r).maximumBlocks =
        (s.partpool r).maximumBlocks ∧
      ((s.linkArea p area).partpool r).partitionType = (s.partpool r).partitionType ∧
      ((s.linkArea p area).partpool r).maxBlocksUsed = (s.partpool r).maxBlocksUsed ∧
      ((s.linkArea p area).partpool r).totalBlocks = (s.partpool r).totalBlocks ∧
      ((s.linkArea p area).partpool r).blockSize = (s.partpool r).blockSize := by
    intro r
    by_cases hr : r = p
    · rw [hr, hself]
      exact ⟨rfl, rfl, rfl, rfl, rfl⟩
    · rw [hother r hr]
      exact ⟨rfl, rfl, rfl, rfl, rfl⟩
  have hquiet : Quiet s (s.linkArea p area) := by
    exact {
      good := {
        inv := hlink
        counted := by
          intro r hr
          have hcr := h.counted r hr
          simp only [Counted] at hcr ⊢
          rw [(hfixed r).2.2.2.1]
          exact hcr
        sized := by
          intro r hr
          rw [(hfixed r).2.2.2.2, (hfixed r).1]
          exact h.sized r hr
        used := by
          intro r hr
          rw [(hfixed r).2.2.1]
          exact h.used r hr
        caller := by
          intro t' x hx
          refine ⟨(h.caller t' x hx).1, fun ho => ?_⟩
          rw [(hfixed x.part).2.1]
          exact (h.caller t' x hx).2 ho }
      partitions := rfl
      maximumBlocks := fun r => (hfixed r).1
      limited := by
        intro r hl
        simp only [Limited]
        rw [(hfixed r).1, (hfixed r).2.1, (hfixed r).2.2.2.1]
        exact hl
      maxBlocksUsed := fun r => (hfixed r).2.2.1
      inUse := fun _ _ => le_rfl }
  have hg' : (s.linkArea p area).growing t = some (.adding p area b 0 o) := hg
  simp only [State.resume, hg]
  refine hquiet.trans (hquiet.good.setGrowing hgi.task hp ?_ ?_ ?_ ?_ ?_ ?_)
  · intro x hx
    obtain ⟨owner, -, rfl⟩ := Option.map_eq_some_iff.mp hx
    rfl
  · rw [hg']
    rintro x ⟨⟩
    rfl
  · rw [hg']
    cases o with
    | none => exact Nat.zero_le _
    | some owner =>
      simp only [Option.map_some, Growth.weight, Growth.part, Growth.pending, if_true]
      exact le_rfl
  · intro x hx
    obtain ⟨owner, -, rfl⟩ := Option.map_eq_some_iff.mp hx
    exact growthInv_of_places hgi.task hp (fun _ => rfl) fun _ _ _ _ _ hx => by cases hx
  · intro x hx c hc
    obtain ⟨owner, -, rfl⟩ := Option.map_eq_some_iff.mp hx
    exact absurd hc List.not_mem_nil
  · intro x hx
    obtain ⟨owner, ho, rfl⟩ := Option.map_eq_some_iff.mp hx
    exact caller_of_owner ((h.caller t _ hg).1 owner ho) rfl

/-- After its growth an allocation tries again. -/
theorem Good.retried {memory : Option ℕ} (h : s.Good) (hg : s.growing t = some (.retry p owner))
    (hexact : s.Exact p) : Step s (s.resume t memory).1 := by
  have hgi := h.inv.growth t _ hg
  have hp : p ∈ s.partitions := hgi.part
  have hquiet : Quiet s (s.setGrowing t none) := by
    refine h.setGrowing hgi.task hp ?_ ?_ ?_ ?_ ?_ ?_
    · intro x hx
      exact absurd hx.symm (Option.some_ne_none x)
    · rw [hg]
      rintro x ⟨⟩
      rfl
    · exact Nat.zero_le _
    · intro x hx
      exact absurd hx.symm (Option.some_ne_none x)
    · intro x hx
      exact absurd hx.symm (Option.some_ne_none x)
    · intro x hx
      exact absurd hx.symm (Option.some_ne_none x)
  simp only [State.resume, hg]
  by_cases hav : ((s.setGrowing t none).partpool p).available = 0
  · rw [if_pos hav]
    exact hquiet.step h
  · rw [if_neg hav]
    refine hquiet.then (hquiet.good.take hp hav ?_ hexact)
    rcases (h.caller t _ hg).1 owner rfl with rfl | rfl
    · exact .inl hgi.task
    · exact .inr rfl

/-- Every step of a growth. -/
theorem Good.resume {memory : Option ℕ} (h : s.Good) (he : s.Enabled (.resume t memory))
    (hr : s.Regular (.resume t memory)) : Step s (s.resume t memory).1 := by
  simp only [Enabled, Regular] at he hr
  cases hg : s.growing t with
  | none =>
    rw [hg] at he
    exact he.elim
  | some g =>
    rw [hg] at he hr
    cases g with
    | allocating p n owner => exact (h.allocated hg he hr).step h
    | rollingBack p n owner total => exact (h.rolledBack hg hr).step h
    | extending p n location total => exact (h.extended hg hr.1 hr.2).step h
    | adding p area b left o =>
      cases left with
      | zero => exact (h.linked hg).step h
      | succ left => exact (h.added hg).step h
    | retry p owner => exact h.retried hg hr

/-- The blocks of a static extension lie inside the memory that is given to it. -/
theorem extension_area {location size blockSize n : ℕ} (hsize : size < 2 ^ 32)
    (hfit : location + size ≤ 2 ^ 32) (hblock : 0 < blockSize)
    (hbefore : ¬ size < sub32 (firstIblockOf (memoryAlignValLarger location)) location)
    (hn : n = sub32 size (sub32 (firstIblockOf (memoryAlignValLarger location)) location) /
      blockSize) (hn0 : n ≠ 0) :
    (∀ c ∈ blocksFrom blockSize n (firstIblockOf (memoryAlignValLarger location)),
      location ≤ c ∧ c < location + size) ∧
    (blocksFrom blockSize n (firstIblockOf (memoryAlignValLarger location))).Nodup := by
  have hfirst : firstIblockOf (memoryAlignValLarger location) < 2 ^ 32 :=
    (Nat.sub_le _ _).trans_lt (Nat.mod_lt _ (by norm_num))
  generalize firstIblockOf (memoryAlignValLarger location) = first at *
  have hsub : sub32 size (sub32 first location) = size - sub32 first location :=
    sub32_eq (Nat.le_of_not_lt hbefore) hsize
  rw [hsub] at hn
  have hlt : sub32 first location < size := by
    by_contra hge
    rw [Nat.sub_eq_zero_of_le (Nat.le_of_not_lt hge), Nat.zero_div] at hn
    exact hn0 hn
  have hlow : location ≤ first := by
    -- The first block behind the end of the address space would be too far from the location.
    by_contra hgt
    have hwrap : sub32 first location = first + 2 ^ 32 - location := by
      simp only [sub32]
      omega
    omega
  rw [sub32_eq hlow hfirst] at hn hlt
  have hmul : blockSize * n ≤ size - (first - location) := by
    rw [hn]
    exact Nat.mul_div_le _ _
  obtain ⟨hmem, hnodup⟩ := blocksFrom_spec (n := n) (b := first) hblock (by omega)
  refine ⟨fun c hc => ?_, hnodup⟩
  have hbound := hmem c hc
  omega

theorem Good.partitionExtend {location size : ℕ} (h : s.Good)
    (he : s.Enabled (.extend t p location size)) :
    Step s (s.partitionExtend t p location size).1 := by
  obtain ⟨ht, hg, hp, hsize, hfit, hunused⟩ := he
  have hold : ∀ x, s.growing t = some x → x.part = p := by
    rw [hg]
    exact fun x hx => absurd hx.symm (Option.some_ne_none x)
  unfold State.partitionExtend
  simp only [if_neg (not_not_intro (h.inv.pool_valid hp))]
  by_cases hdynamic : (s.partpool p).partitionType = .dynamic
  · rw [if_pos hdynamic]
    exact (Quiet.refl h).step h
  have hstatic : (s.partpool p).partitionType = .static := by
    cases hty : (s.partpool p).partitionType with
    | dynamic => exact absurd hty hdynamic
    | static => rfl
  rw [if_neg hdynamic]
  by_cases hbefore : size < sub32 (firstIblockOf (memoryAlignValLarger location)) location
  · rw [if_pos hbefore]
    exact (Quiet.refl h).step h
  rw [if_neg hbefore]
  by_cases hn : sub32 size (sub32 (firstIblockOf (memoryAlignValLarger location)) location) /
      (s.partpool p).blockSize = 0
  · rw [if_pos hn]
    exact (Quiet.refl h).step h
  rw [if_neg hn]
  obtain ⟨hin, hnodup⟩ := extension_area hsize hfit (h.sized p hp).1 hbefore rfl hn
  have hfree := fun c hc => hunused c (hin c hc).1 (hin c hc).2
  refine Quiet.step (h.setGrowing ht hp ?_ hold ?_ ?_ ?_ ?_) h
  · rintro x ⟨⟩
    rfl
  · rw [hg]
    simp only [Growth.weight, Growth.part, Growth.pending, if_true]
    exact le_rfl
  · rintro x ⟨⟩
    exact {
      task := ht
      part := hp
      nodup := hnodup
      fresh := fun b hb => ⟨(hfree b hb).1, (hfree b hb).2.1, (hfree b hb).2.2.1⟩
      area := fun _ _ _ _ _ hx => by cases hx }
  · rintro x ⟨⟩
    exact fun b hb t' _ => (hfree b hb).2.2.2 t'
  · rintro x ⟨⟩
    exact ⟨fun o ho => absurd ho.symm (Option.some_ne_none o), fun _ => hstatic⟩

theorem Good.partitionFree (h : s.Good) (he : s.Enabled (.free t b)) :
    Step s (s.partitionFree t b).1 := by
  obtain ⟨-, -, p, hp, hb, hal⟩ := he
  obtain ⟨l, hl⟩ := h.inv.parts p hp
  unfold State.partitionFree
  simp only [(hl.header b hb).2.2, Bool.not_true, Bool.false_eq_true, if_false]
  by_cases howner : (s.block b).taskId ≠ s.systemTaskId ∧ (s.block b).taskId ≠ t
  · rw [if_pos howner]
    exact (Quiet.refl h).step h
  · have hal : s.Allocated p b := hal.resolve_right howner
    have hlink : (s.block b).link = p := hal
    rw [if_neg howner, hlink, if_neg (not_not_intro (h.inv.pool_valid hp))]
    obtain ⟨hinv, hshrunk⟩ := h.inv.push 0 hp hb hal (h.counted p hp).made_lt
    exact (hshrunk.quiet h hinv).step h

theorem Good.partitionTransfer (h : s.Good) (he : s.Enabled (.transfer t b id))
    (hr : s.Regular (.transfer t b id)) : Step s (s.partitionTransfer t b id).1 := by
  obtain ⟨-, -, p, hp, hb, hal⟩ := he
  obtain ⟨l, hl⟩ := h.inv.parts p hp
  have hid : id ≠ 0 := hr
  unfold State.partitionTransfer
  simp only [(hl.header b hb).2.2, Bool.not_true, Bool.false_eq_true, if_false]
  by_cases htask : id = s.systemTaskId ∨ id ∈ s.tasks
  · have htd : s.taskGetTd t id = some id := by
      simp only [taskGetTd, if_neg hid, if_pos htask]
    simp only [htd, Option.isNone_some, Bool.false_eq_true, if_false]
    have hinv : (s.setBlock b
        (Iblock.calcChecksum ⟨(s.block b).link, (s.block b).checksum, id⟩)).Inv :=
      h.inv.setBlock hp hb hal rfl (Iblock.calcChecksum_valid _) htask.symm
    have huse : ∀ q, (s.setBlock b
        (Iblock.calcChecksum ⟨(s.block b).link, (s.block b).checksum, id⟩)).inUse q = s.inUse q := by
      intro q
      refine List.countP_congr fun c _ => ?_
      rw [decide_eq_true_eq, decide_eq_true_eq]
      by_cases hcb : c = b
      · subst hcb
        simp only [Allocated, State.setBlock, Function.update_self, Iblock.calcChecksum_link]
      · simp only [Allocated, State.setBlock, Function.update_of_ne hcb]
    refine Quiet.step ⟨⟨hinv, h.counted, h.sized, ?_, h.caller⟩, rfl, fun _ => rfl,
      fun _ hl => hl, fun _ => rfl, fun q _ => (huse q).le⟩ h
    intro q hq
    rw [huse]
    exact h.used q hq
  · have htd : s.taskGetTd t id = none := by
      simp only [taskGetTd, if_neg hid, if_neg htask]
    simp only [htd, Option.isNone_none, if_true]
    exact (Quiet.refl h).step h

theorem Good.taskCreate (h : s.Good) (he : s.Enabled (.taskCreate t)) :
    Step s { s with tasks := insert t s.tasks } := by
  obtain ⟨ht, -⟩ := he
  have hg : s.growing t = none := by
    cases hx : s.growing t with
    | none => rfl
    | some g => exact absurd (h.inv.growth t g hx).task ht
  have hinv : State.Inv { s with tasks := insert t s.tasks } := by
    refine h.inv.of_parts rfl (Finset.subset_insert t s.tasks) (fun _ => rfl) rfl rfl ?_
    intro p hp
    obtain ⟨l, hl⟩ := h.inv.parts p hp
    exact ⟨l, hl.congr rfl rfl (fun _ _ => rfl) rfl fun b hb hbl =>
      (hl.allocated b hb hbl).2.imp_left fun hmem => Finset.mem_insert_of_mem hmem⟩
  have hpending : ∀ p, ∑ x ∈ insert t s.tasks, Growth.weight p (s.growing x) = s.pending p := by
    intro p
    rw [Finset.sum_insert ht, hg]
    exact Nat.zero_add _
  refine Quiet.step ⟨⟨hinv, ?_, h.sized, h.used, h.caller⟩, rfl, fun _ => rfl, fun _ hl => hl,
    fun _ => rfl, fun _ _ => le_rfl⟩ h
  intro p hp
  have hc := h.counted p hp
  simp only [Counted] at hc ⊢
  change (s.made p).length + ∑ x ∈ insert t s.tasks, Growth.weight p (s.growing x) ≤ _ ∧ _
  rw [hpending]
  exact hc

/-- A growth is given up. -/
theorem Good.stopGrowing (h : s.Good) (ht : t ∈ s.tasks) : Quiet s (s.setGrowing t none) := by
  cases hg : s.growing t with
  | none =>
    have hsame : s.setGrowing t none = s := by
      simp only [State.setGrowing, ← hg, Function.update_eq_self]
    rw [hsame]
    exact Quiet.refl h
  | some g =>
    refine h.setGrowing ht (h.inv.growth t g hg).part ?_ ?_ (Nat.zero_le _) ?_ ?_ ?_
    · exact fun x hx => absurd hx.symm (Option.some_ne_none x)
    · rw [hg]
      rintro x ⟨⟩
      rfl
    · exact fun x hx => absurd hx.symm (Option.some_ne_none x)
    · exact fun x hx => absurd hx.symm (Option.some_ne_none x)
    · exact fun x hx => absurd hx.symm (Option.some_ne_none x)

/-- A task that owns no block and is in no growth goes away. -/
theorem Good.eraseTask (h : s.Good) (hg : s.growing t = none)
    (hfree : ∀ p ∈ s.partitions, ∀ b ∈ s.made p, ¬ s.Held t p b) :
    Quiet s { s with tasks := s.tasks.erase t } := by
  have hother : ∀ t' g, s.growing t' = some g → t' ≠ t := by
    rintro t' g hx rfl
    exact Option.some_ne_none g (hx.symm.trans hg)
  have hinv : State.Inv { s with tasks := s.tasks.erase t } := by
    exact {
      parts := by
        intro p hp
        obtain ⟨l, hl⟩ := h.inv.parts p hp
        refine ⟨l, hl.congr rfl rfl (fun _ _ => rfl) rfl fun b hb hbl => ?_⟩
        obtain ⟨hal, howner⟩ := hl.allocated b hb hbl
        refine howner.imp_left fun hmem => Finset.mem_erase.mpr ⟨fun hid => ?_, hmem⟩
        exact hfree p hp b hb ⟨hid, hal⟩
      zero := h.inv.zero
      apart := h.inv.apart
      growth := by
        intro t' g hx
        have hgi := h.inv.growth t' g hx
        exact hgi.congr rfl (Finset.mem_erase.mpr ⟨hother t' g hx, hgi.task⟩) (fun _ => rfl) rfl
      growthApart := h.inv.growthApart }
  refine ⟨⟨hinv, ?_, h.sized, h.used, h.caller⟩, rfl, fun _ => rfl, fun _ hl => hl,
    fun _ => rfl, fun _ _ => le_rfl⟩
  intro p hp
  have hc := h.counted p hp
  have hle : ∑ x ∈ s.tasks.erase t, Growth.weight p (s.growing x) ≤ s.pending p :=
    Finset.sum_le_sum_of_subset (Finset.erase_subset t s.tasks)
  simp only [Counted] at hc ⊢
  change (s.made p).length + ∑ x ∈ s.tasks.erase t, Growth.weight p (s.growing x) ≤ _ ∧ _
  exact ⟨by omega, hc.2⟩

theorem Good.taskDestroy (h : s.Good) (he : s.Enabled (.taskDestroy t))
    (hr : s.Regular (.taskDestroy t)) : Step s (s.taskDestroy t) := by
  obtain ⟨hinv, hshrunk, hreturned⟩ := partitionCleanup_spec (t := t) h.inv h.counted
  have hclean := hshrunk.quiet h hinv
  have hstop := hclean.good.stopGrowing (t := t) (by rw [hshrunk.tasks]; exact he)
  have herase := hstop.good.eraseTask (t := t) (Function.update_self _ _ _) ?_
  · refine ((hclean.trans hstop).trans ?_).step h
    have htasks : ((s.partitionCleanup t).setGrowing t none).tasks = s.tasks := hshrunk.tasks
    rw [htasks] at herase
    exact herase
  · intro p hp b hb hheld
    have hp : p ∈ s.partitions := by rw [← hshrunk.partitions]; exact hp
    have hb : b ∈ s.made p := by rw [← hshrunk.made]; exact hb
    have hheld : (s.partitionCleanup t).Held t p b := hheld
    have hold : s.Held t p b := by
      have hblock := hshrunk.kept p hp b hb hheld.2
      simp only [Held, Allocated] at hheld ⊢
      rw [← hblock]
      exact hheld
    obtain ⟨area, harea, hin⟩ := hr p hp b hb hold
    exact (hreturned p hp area harea b hin).2.2 hheld

/-- Every step. -/
theorem Good.apply {op : Op} (h : s.Good) (he : s.Enabled op) (hr : s.Regular op) :
    Step s (s.apply op) := by
  cases op with
  | alloc t p system =>
    refine h.partitionAlloc he.1 he.2.1 he.2.2 ?_ hr.1 hr.2
    cases system with
    | false => exact .inl rfl
    | true => exact .inr rfl
  | resume t memory => exact h.resume he hr
  | extend t p location size => exact h.partitionExtend he
  | free t b => exact h.partitionFree he
  | transfer t b id => exact h.partitionTransfer he hr
  | taskCreate t => exact h.taskCreate he
  | taskDestroy t => exact h.taskDestroy he hr

/-- A property of every step of a run. -/
def Along (P : State → Op → Prop) : State → List Op → Prop
  | _, [] => True
  | s, op :: ops => P s op ∧ Along P (s.apply op) ops

/-- The largest number of blocks of a partition that were allocated at one time of a run. -/
def peak (s : State) (p : ℕ) : List Op → ℕ
  | [] => s.inUse p
  | op :: ops => max (s.inUse p) ((s.apply op).peak p ops)

theorem inUse_le_peak {ops : List Op} : s.inUse p ≤ s.peak p ops := by
  cases ops with
  | nil => exact le_rfl
  | cons op ops => exact le_max_left _ _

/-- Runs keep everything, and the statistics follow the largest number of allocated blocks. -/
theorem Good.run {ops : List Op} (h : s.Good) (he : Along Enabled s ops)
    (hr : Along Regular s ops) :
    (s.run ops).Good ∧ (s.run ops).partitions = s.partitions ∧
      (∀ p, ((s.run ops).partpool p).maximumBlocks = (s.partpool p).maximumBlocks) ∧
      (∀ p, s.Limited p → (s.run ops).Limited p) ∧
      ∀ p ∈ s.partitions, ((s.run ops).partpool p).maxBlocksUsed =
        max (s.partpool p).maxBlocksUsed (s.peak p ops) := by
  induction ops generalizing s with
  | nil =>
    refine ⟨h, rfl, fun _ => rfl, fun _ hl => hl, fun p hp => ?_⟩
    exact (max_eq_left (h.used p hp)).symm
  | cons op ops ih =>
    have hstep := h.apply he.1 hr.1
    obtain ⟨hgood, hparts, hmax, hlimited, hused⟩ := ih hstep.good he.2 hr.2
    refine ⟨hgood, hparts.trans hstep.partitions,
      fun p => (hmax p).trans (hstep.maximumBlocks p),
      fun p hl => hlimited p (hstep.limited p hl), fun p hp => ?_⟩
    have hnext := hused p (by rw [hstep.partitions]; exact hp)
    have hin := h.used p hp
    have hpeak : (s.apply op).inUse p ≤ (s.apply op).peak p ops := inUse_le_peak
    show (((s.apply op).run ops).partpool p).maxBlocksUsed =
      max (s.partpool p).maxBlocksUsed (max (s.inUse p) ((s.apply op).peak p ops))
    rw [hnext, hstep.maxBlocksUsed p hp]
    omega

/-- A walk along a free list finds valid headers and its end. -/
theorem testFreeList_ok {fuel : ℕ} {l : List ℕ}
    (hl : Linked (fun c => (s.block c).link) b l 0)
    (hheader : ∀ c ∈ l, c ≠ 0 ∧ (s.block c).validChecksum = true) (hfuel : l.length ≤ fuel) :
    s.testFreeList fuel b = some .ok := by
  induction l generalizing b fuel with
  | nil =>
    obtain rfl : b = 0 := hl
    cases fuel <;> rfl
  | cons c l ih =>
    obtain ⟨rfl, hl⟩ := hl
    obtain ⟨hne, hvalid⟩ := hheader b List.mem_cons_self
    obtain ⟨b, rfl⟩ := Nat.exists_eq_succ_of_ne_zero hne
    cases fuel with
    | zero => exact absurd hfuel (by simp)
    | succ fuel =>
      have hnot : ¬ ((!(s.block (b + 1)).validChecksum) = true) := by
        rw [Nat.succ_eq_add_one] at hvalid
        rw [hvalid]
        decide
      rw [testFreeList, if_neg hnot]
      exact ih hl (fun c hc => hheader c (List.mem_cons_of_mem _ hc)) (Nat.le_of_succ_le_succ hfuel)

theorem testBlocks_ok {l : List ℕ} (hvalid : (s.partpool p).pool.valid = partitionValid)
    (hl : ∀ c ∈ l, (s.block c).validChecksum = true) : s.testBlocks p l = .ok := by
  induction l with
  | nil => rfl
  | cons c l ih =>
    have hc := hl c List.mem_cons_self
    have hnot : ¬ ((!(s.block c).validChecksum) = true) := by
      rw [hc]
      decide
    rw [testBlocks, if_neg (not_not_intro hvalid), if_neg hnot]
    exact ih fun c hc => hl c (List.mem_cons_of_mem _ hc)

/-- `_partition_test` finds no fault. -/
theorem Good.partitionTest {fuel : ℕ} {ps : List ℕ} (h : s.Good) (hfuel : maxSteps ≤ fuel)
    (hps : ∀ p ∈ ps, p ∈ s.partitions) : s.partitionTest fuel ps = some .ok := by
  induction ps with
  | nil => rfl
  | cons p ps ih =>
    have hp := hps p List.mem_cons_self
    obtain ⟨l, hl⟩ := h.inv.parts p hp
    have hblocks : s.testBlocks p ((s.partpool p).areas.flatMap (s.partpool p).iblocks) = .ok := by
      refine testBlocks_ok (h.inv.pool_valid hp) fun c hc => ?_
      obtain ⟨area, harea, hin⟩ := List.mem_flatMap.mp hc
      exact (hl.header c ((hl.areas area harea).2 c hin)).2.2
    have hlen : l.length ≤ (s.made p).length := (hl.nodup.subperm hl.freeMade).length_le
    have hlt := (h.counted p hp).made_lt
    have hfree : s.testFreeList fuel (s.partpool p).freeList = some .ok := by
      refine testFreeList_ok hl.linked (fun c hc => ?_) ?_
      · have hheader := hl.header c (hl.freeMade c hc)
        exact ⟨hheader.1, hheader.2.2⟩
      · simp only [maxSteps] at hfuel
        omega
    rw [State.partitionTest]
    simp only [hblocks, hfree]
    exact ih fun q hq => hps q (List.mem_cons_of_mem _ hq)

/-- A partition as `_partition_create` and `_partition_create_at` leave it: one area, all of
its blocks free, the last one first. -/
structure CreatedPart (s : State) (p : ℕ) : Prop where
  made : s.made p = (s.partpool p).iblocks (s.partpool p).pool
  linked : Linked (fun b => (s.block b).link) (s.partpool p).freeList (s.made p).reverse 0
  nodup : (s.made p).Nodup
  header : ∀ b ∈ s.made p, b ≠ 0 ∧ b ∉ s.partitions ∧ (s.block b).validChecksum = true
  available : (s.partpool p).available = (s.made p).length
  totalBlocks : (s.partpool p).totalBlocks = (s.made p).length
  word : (s.partpool p).totalBlocks < 2 ^ 32 ∧ (s.partpool p).maximumBlocks < 2 ^ 32
  valid : (s.partpool p).pool.valid = partitionValid
  extensions : (s.partpool p).extensions = []
  maxBlocksUsed : (s.partpool p).maxBlocksUsed = 0
  blockSize : 0 < (s.partpool p).blockSize
  static : (s.partpool p).partitionType = .static → (s.partpool p).maximumBlocks = 0

/-- Partitions that have just been created. -/
structure Created (s : State) : Prop where
  growing : ∀ t, s.growing t = none
  zero : 0 ∉ s.partitions
  parts : ∀ p ∈ s.partitions, s.CreatedPart p
  apart : ∀ p ∈ s.partitions, ∀ q ∈ s.partitions, p ≠ q → ∀ b ∈ s.made p, b ∉ s.made q

/-- What is said of the partitions after a run from `s`: every block is on the free list once
or allocated to a task that exists or to the system; `AVAILABLE`, the checksums, the limits
and `MAX_BLOCKS_USED` are right. -/
structure Sound (s : State) (ops : List Op) : Prop where
  blocks : ∀ p ∈ (s.run ops).partitions, ∃ l,
    Linked (fun b => ((s.run ops).block b).link) ((s.run ops).partpool p).freeList l 0 ∧
    l.Nodup ∧ (∀ b ∈ l, b ∈ (s.run ops).made p) ∧
    ((s.run ops).partpool p).available = l.length ∧
    ∀ b ∈ (s.run ops).made p, (b ∈ l ∧ ¬ (s.run ops).Allocated p b) ∨
      (b ∉ l ∧ (s.run ops).Allocated p b ∧ (s.run ops).IsOwner ((s.run ops).block b).taskId)
  checksums : ∀ p ∈ (s.run ops).partitions, ∀ b ∈ (s.run ops).made p,
    ((s.run ops).block b).validChecksum = true
  test : ∀ fuel, maxSteps ≤ fuel →
    (s.run ops).partitionTest fuel (s.run ops).partitions = some .ok
  limits : ∀ p ∈ (s.run ops).partitions, (s.partpool p).maximumBlocks ≠ 0 →
    (s.partpool p).totalBlocks ≤ (s.partpool p).maximumBlocks →
    ((s.run ops).partpool p).totalBlocks ≤ ((s.run ops).partpool p).maximumBlocks
  used : ∀ p ∈ (s.run ops).partitions, ((s.run ops).partpool p).maxBlocksUsed = s.peak p ops

theorem Created.good (h : s.Created) : s.Good := by
  have hpart : ∀ p ∈ s.partitions, s.PartInv p (s.made p).reverse := by
    intro p hp
    have hc := h.parts p hp
    exact {
      linked := hc.linked
      nodup := List.nodup_reverse.mpr hc.nodup
      freeMade := fun b hb => List.mem_reverse.mp hb
      available := by rw [List.length_reverse]; exact hc.available
      allocated := fun b hb hl => absurd (List.mem_reverse.mpr hb) hl
      madeNodup := hc.nodup
      header := hc.header
      areas := by
        intro area harea
        rw [Partpool.areas, hc.extensions, List.mem_singleton] at harea
        subst harea
        exact ⟨hc.valid, fun b hb => hc.made ▸ hb⟩ }
  have hinv : s.Inv := by
    exact {
      parts := fun p hp => ⟨_, hpart p hp⟩
      zero := h.zero
      apart := h.apart
      growth := by
        intro t g hg
        exact absurd (hg.symm.trans (h.growing t)) (Option.some_ne_none g)
      growthApart := by
        intro t t' _ b hb
        rw [places_none (h.growing t)] at hb
        exact absurd hb List.not_mem_nil }
  have hpending : ∀ p, s.pending p = 0 := by
    intro p
    refine Finset.sum_eq_zero fun t _ => ?_
    rw [h.growing t]
    rfl
  exact {
    inv := hinv
    counted := by
      intro p hp
      have hc := h.parts p hp
      simp only [Counted]
      rw [hpending, hc.totalBlocks]
      exact ⟨le_rfl, hc.totalBlocks ▸ hc.word.1⟩
    sized := fun p hp => ⟨(h.parts p hp).blockSize, (h.parts p hp).word.2⟩
    used := by
      intro p hp
      have hsum := hinv.inUse_add hp
      have hav := (h.parts p hp).available
      omega
    caller := by
      intro t g hg
      exact absurd (hg.symm.trans (h.growing t)) (Option.some_ne_none g) }

theorem Good.blocks (h : s.Good) (hp : p ∈ s.partitions) : ∃ l,
    Linked (fun b => (s.block b).link) (s.partpool p).freeList l 0 ∧ l.Nodup ∧
      (∀ b ∈ l, b ∈ s.made p) ∧ (s.partpool p).available = l.length ∧
      ∀ b ∈ s.made p, (b ∈ l ∧ ¬ s.Allocated p b) ∨
        (b ∉ l ∧ s.Allocated p b ∧ s.IsOwner (s.block b).taskId) := by
  obtain ⟨l, hl⟩ := h.inv.parts p hp
  refine ⟨l, hl.linked, hl.nodup, hl.freeMade, hl.available, fun b hb => ?_⟩
  by_cases hbl : b ∈ l
  · exact .inl ⟨hbl, hl.not_allocated hp h.inv.zero hbl⟩
  · exact .inr ⟨hbl, hl.allocated b hb hbl⟩

/-- In every run that keeps clear of the defects the partitions are right: no block is taken
while a growth of its partition counts blocks that do not exist, and so on as `Regular` says. -/
theorem partition_pools {ops : List Op} (h : s.Created) (he : Along Enabled s ops)
    (hr : Along Regular s ops) : s.Sound ops := by
  obtain ⟨hgood, hparts, hmax, hlimited, hused⟩ := h.good.run he hr
  exact {
    blocks := fun p hp => hgood.blocks hp
    checksums := by
      intro p hp b hb
      obtain ⟨l, hl⟩ := hgood.inv.parts p hp
      exact (hl.header b hb).2.2
    test := fun fuel hfuel => hgood.partitionTest hfuel fun p hp => hp
    limits := by
      intro p hp hne hle
      rw [hparts] at hp
      refine (hlimited p (fun _ => ⟨?_, hle⟩) ?_).2
      · cases hty : (s.partpool p).partitionType with
        | dynamic => rfl
        | static => exact absurd ((h.parts p hp).static hty) hne
      · rw [hmax]
        exact hne
    used := by
      intro p hp
      rw [hparts] at hp
      rw [hused p hp, (h.parts p hp).maxBlocksUsed, Nat.zero_max] }

end State

/-- A dynamic partition at 64 with one block at 128, which grows by one block. Tasks 1 and 2
are there; the system is task 9. -/
def onePartition : State where
  partitions := [64]
  partpool := fun _ => ⟨32, 1, 128, 1, 0, 1, 0, .dynamic, ⟨partitionValid, 1, 128⟩, []⟩
  block := fun _ => ⟨0, 0, 0⟩
  growing := fun _ => none
  tasks := {1, 2}
  systemTaskId := 9
  made := fun p => if p = 64 then [128] else []

namespace State

theorem onePartition_created : onePartition.Created where
  growing := fun _ => rfl
  zero := by decide
  parts := by
    intro p hp
    obtain rfl := List.mem_singleton.mp hp
    exact {
      made := by decide
      linked := ⟨rfl, rfl⟩
      nodup := by decide
      header := by decide
      available := rfl
      totalBlocks := rfl
      word := by decide
      valid := rfl
      extensions := rfl
      maxBlocksUsed := rfl
      blockSize := by decide
      static := by decide }
  apart := by decide

/-- Task 1 allocates the block, gives it to task 2, and task 2 is destroyed. -/
theorem partition_pools_destroyed :
    onePartition.Sound [.alloc 1 64 false, .transfer 1 128 2, .taskDestroy 2] := by
  have htask : 2 ∈ onePartition.tasks := by decide
  have hid : 2 ≠ 0 := by decide
  refine partition_pools onePartition_created ?_ ?_
  · exact ⟨⟨by decide, rfl, by decide⟩, ⟨by decide, rfl, 64, by decide, by decide, rfl⟩,
      htask, trivial⟩
  · refine ⟨⟨fun _ => .inl rfl, fun hc => absurd hc (by decide)⟩, hid, ?_, trivial⟩
    intro p hp b hb _
    obtain rfl := List.mem_singleton.mp hp
    exact ⟨⟨partitionValid, 1, 128⟩, List.mem_singleton.mpr rfl, hb⟩

/-- Task 2 grows the partition while task 1 frees its block and allocates it again: two blocks
are said to have been used, and there never was more than one. A block that is transferred to
task 0 has no owner. -/
theorem partition_pools_fails :
    (onePartition.Created ∧
      Along Enabled onePartition
        [.alloc 1 64 false, .alloc 2 64 false, .free 1 128, .alloc 1 64 false] ∧
      ¬ onePartition.Sound
        [.alloc 1 64 false, .alloc 2 64 false, .free 1 128, .alloc 1 64 false]) ∧
    Along Enabled onePartition [.alloc 1 64 false, .transfer 1 128 0] ∧
      ¬ onePartition.Sound [.alloc 1 64 false, .transfer 1 128 0] := by
  refine ⟨⟨onePartition_created, ?_, fun h => ?_⟩, ?_, fun h => ?_⟩
  · exact ⟨⟨by decide, rfl, by decide⟩, ⟨by decide, rfl, by decide⟩,
      ⟨by decide, by decide, 64, by decide, by decide, .inl (by decide)⟩,
      ⟨by decide, by decide, by decide⟩, trivial⟩
  · have hused := h.used 64 (by decide)
    revert hused
    decide
  · exact ⟨⟨by decide, rfl, by decide⟩, ⟨by decide, rfl, 64, by decide, by decide, rfl⟩, trivial⟩
  · obtain ⟨l, -, -, -, -, hb⟩ := h.blocks 64 (by decide)
    rcases hb 128 (by decide) with ⟨-, hfree⟩ | ⟨-, -, howner⟩
    · exact hfree (by decide)
    · revert howner
      simp only [IsOwner]
      decide

end State

end Mqx.Mem.Partition
