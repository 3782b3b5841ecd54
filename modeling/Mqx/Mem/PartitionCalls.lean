import Mathlib.Data.List.TakeWhile
import Mqx.Mem.PartitionSteps

/-!
# The calls on partitions

Every call, every step of a growth and the end of a task keep the invariant. The cleanup of a
task walks over the areas of all partitions; what it has passed the task owns no more.
-/

namespace Mqx.Mem.Partition

open Function (update)
open PointerList

namespace State

variable {s s' : State} {p q b t id owner : ℕ} {l : List ℕ}

/-- Block `b` of partition `p` is allocated to task `t`. -/
def Held (s : State) (t p b : ℕ) : Prop := (s.block b).taskId = t ∧ s.Allocated p b

/-- A block of a partition that task `t` does not own. -/
def Returned (s : State) (t p b : ℕ) : Prop :=
  p ∈ s.partitions ∧ b ∈ s.made p ∧ ¬ s.Held t p b

theorem Shrunk.returned (h : Shrunk s s') (hr : s.Returned t p b) : s'.Returned t p b := by
  obtain ⟨hp, hb, hheld⟩ := hr
  refine ⟨by rw [h.partitions]; exact hp, by rw [h.made]; exact hb, fun hheld' => hheld ?_⟩
  have hblock := h.kept p hp b hb hheld'.2
  simp only [Held, Allocated] at hheld' ⊢
  rw [← hblock]
  exact hheld'

/-- A walk that keeps the invariant is done with all it has passed. -/
theorem foldl_returned {α : Type} {f : State → α → State} {L : List α}
    (Done : State → α → Prop) (hinv : s.Inv) (hcount : ∀ p ∈ s.partitions, s.Counted p)
    (hmono : ∀ s' s'' a, Shrunk s' s'' → Done s' a → Done s'' a)
    (hstep : ∀ s' a, a ∈ L → s'.Inv → (∀ p ∈ s'.partitions, s'.Counted p) → Shrunk s s' →
      (f s' a).Inv ∧ Shrunk s' (f s' a) ∧ Done (f s' a) a) :
    (L.foldl f s).Inv ∧ Shrunk s (L.foldl f s) ∧ ∀ a ∈ L, Done (L.foldl f s) a := by
  induction L generalizing s with
  | nil => exact ⟨hinv, Shrunk.refl s, by simp⟩
  | cons a L ih =>
    obtain ⟨hinv', hshrunk, hdone⟩ := hstep s a List.mem_cons_self hinv hcount (Shrunk.refl s)
    have hcount' : ∀ p ∈ (f s a).partitions, (f s a).Counted p := by
      rw [hshrunk.partitions]
      exact fun p hp => hshrunk.counted (hcount p hp)
    obtain ⟨hinv'', hshrunk', hdone'⟩ := ih hinv' hcount' fun s' c hc hi hn hsh =>
      hstep s' c (List.mem_cons_of_mem _ hc) hi hn (hshrunk.trans hsh)
    refine ⟨hinv'', hshrunk.trans hshrunk', fun c hc => ?_⟩
    rcases List.mem_cons.mp hc with rfl | hc
    · exact hmono _ _ _ hshrunk' hdone
    · exact hdone' c hc

theorem Counted.made_lt (h : s.Counted p) : (s.made p).length < 2 ^ 32 := by
  obtain ⟨hle, hlt⟩ := h
  omega

theorem cleanupBlock_spec (hinv : s.Inv) (hcount : s.Counted p) (hp : p ∈ s.partitions)
    (hb : b ∈ s.made p) :
    (cleanupBlock t p s b).Inv ∧ Shrunk s (cleanupBlock t p s b) ∧
      (cleanupBlock t p s b).Returned t p b := by
  unfold cleanupBlock
  split
  · rename_i hheld
    obtain ⟨hinv', hshrunk⟩ := hinv.push (s.block b).taskId hp hb hheld.2 hcount.made_lt
    refine ⟨hinv', hshrunk, by rw [hshrunk.partitions]; exact hp, by rw [hshrunk.made]; exact hb,
      fun hheld' => ?_⟩
    obtain ⟨l, hl⟩ := hinv.parts p hp
    have hlink := hheld'.2
    simp only [Allocated] at hlink
    rw [pushBlock_eq, pushed_block_self, Iblock.calcChecksum_link] at hlink
    exact hl.freeList_ne hp hinv.zero hlink
  · rename_i hheld
    exact ⟨hinv, Shrunk.refl s, hp, hb, hheld⟩

theorem Shrunk.areas (h : Shrunk s s') (p : ℕ) : (s'.partpool p).areas = (s.partpool p).areas := by
  obtain ⟨f, a, hfa⟩ := h.partpool p
  rw [hfa]
  rfl

theorem Shrunk.blockSize (h : Shrunk s s') (p : ℕ) :
    (s'.partpool p).blockSize = (s.partpool p).blockSize := by
  obtain ⟨f, a, hfa⟩ := h.partpool p
  rw [hfa]

theorem cleanupArea_spec (area : PartpoolBlock) (hinv : s.Inv)
    (hcount : ∀ p ∈ s.partitions, s.Counted p) (hp : p ∈ s.partitions)
    (hblocks : ∀ b ∈ (s.partpool p).iblocks area, b ∈ s.made p) :
    (cleanupArea t p s area).Inv ∧ Shrunk s (cleanupArea t p s area) ∧
      ∀ b ∈ (s.partpool p).iblocks area, (cleanupArea t p s area).Returned t p b := by
  unfold cleanupArea
  refine foldl_returned (fun s' b => s'.Returned t p b) hinv hcount
    (fun _ _ _ hsh hr => hsh.returned hr) ?_
  intro s' b hb hinv' hcount' hsh
  have hp' : p ∈ s'.partitions := by rw [hsh.partitions]; exact hp
  exact cleanupBlock_spec hinv' (hcount' p hp') hp' (by rw [hsh.made]; exact hblocks b hb)

/-- All areas of a partition are valid. -/
theorem Inv.areas_of (h : s.Inv) (hp : p ∈ s.partitions) :
    ∀ area ∈ (s.partpool p).areas, s.AreaOf p area := by
  obtain ⟨l, hl⟩ := h.parts p hp
  exact hl.areas

theorem cleanupPartition_spec (hinv : s.Inv) (hcount : ∀ p ∈ s.partitions, s.Counted p)
    (hp : p ∈ s.partitions) :
    (cleanupPartition t s p).Inv ∧ Shrunk s (cleanupPartition t s p) ∧
      ∀ area ∈ (s.partpool p).areas, ∀ b ∈ (s.partpool p).iblocks area,
        (cleanupPartition t s p).Returned t p b := by
  have hall : ((s.partpool p).areas.takeWhile fun area => area.valid = partitionValid) =
      (s.partpool p).areas := by
    refine List.takeWhile_eq_self_iff.2 fun area harea => ?_
    exact decide_eq_true (hinv.areas_of hp area harea).1
  unfold cleanupPartition
  rw [hall]
  refine foldl_returned (fun s' area => ∀ b ∈ (s.partpool p).iblocks area,
    s'.Returned t p b) hinv hcount (fun _ _ _ hsh hr b hb => hsh.returned (hr b hb)) ?_
  intro s' area harea hinv' hcount' hsh
  have hp' : p ∈ s'.partitions := by rw [hsh.partitions]; exact hp
  have hspec := cleanupArea_spec (t := t) area hinv' hcount' hp' ?_
  · rw [iblocks_congr (hsh.blockSize p)] at hspec
    exact hspec
  · rw [iblocks_congr (hsh.blockSize p), hsh.made]
    exact (hinv.areas_of hp area harea).2

/-- After its cleanup a task owns no block of an area. -/
theorem partitionCleanup_spec (hinv : s.Inv) (hcount : ∀ p ∈ s.partitions, s.Counted p) :
    (s.partitionCleanup t).Inv ∧ Shrunk s (s.partitionCleanup t) ∧
      ∀ p ∈ s.partitions, ∀ area ∈ (s.partpool p).areas, ∀ b ∈ (s.partpool p).iblocks area,
        (s.partitionCleanup t).Returned t p b := by
  unfold partitionCleanup
  refine foldl_returned (fun s' p => ∀ area ∈ (s.partpool p).areas,
    ∀ b ∈ (s.partpool p).iblocks area, s'.Returned t p b) hinv hcount
    (fun _ _ _ hsh hr area ha b hb => hsh.returned (hr area ha b hb)) ?_
  intro s' p hp hinv' hcount' hsh
  have hspec := cleanupPartition_spec (t := t) hinv' hcount' (by rw [hsh.partitions]; exact hp)
  rw [hsh.areas p] at hspec
  refine ⟨hspec.1, hspec.2.1, fun area ha b hb => hspec.2.2 area ha b ?_⟩
  rw [iblocks_congr (hsh.blockSize p)]
  exact hb

/-- A task goes on to a growth, or out of one, that has nobody else's addresses in hand. -/
theorem Inv.setGrowing (h : s.Inv) {g : Option Growth}
    (hg : ∀ x, g = some x → s.GrowthInv t x)
    (hapart : ∀ x, g = some x → ∀ b ∈ x.places (s.partpool x.part).blockSize,
      ∀ t', t' ≠ t → b ∉ s.places t') : (s.setGrowing t g).Inv := by
  have hself : (s.setGrowing t g).growing t = g := Function.update_self _ _ _
  have hother : ∀ t', t' ≠ t → (s.setGrowing t g).growing t' = s.growing t' :=
    fun t' hne => Function.update_of_ne hne _ _
  have hplaces : ∀ t', t' ≠ t → (s.setGrowing t g).places t' = s.places t' :=
    fun t' hne => places_congr (hother t' hne) fun _ => rfl
  have hmine : ∀ b ∈ (s.setGrowing t g).places t, ∀ t', t' ≠ t → b ∉ s.places t' := by
    intro b hb
    cases g with
    | none =>
      rw [places_none hself] at hb
      exact absurd hb List.not_mem_nil
    | some x =>
      rw [places_some hself] at hb
      exact hapart x rfl b hb
  exact {
    parts := by
      intro p hp
      obtain ⟨l, hl⟩ := h.parts p hp
      exact ⟨l, hl.congr rfl rfl (fun _ _ => rfl) rfl fun b hb hbl => (hl.allocated b hb hbl).2⟩
    zero := h.zero
    apart := h.apart
    growth := by
      intro t' x hx
      by_cases hne : t' = t
      · rw [hne] at hx ⊢
        rw [hself] at hx
        have hgi := hg x hx
        exact hgi.congr rfl hgi.task (fun _ => rfl) rfl
      · rw [hother t' hne] at hx
        have hgi := h.growth t' x hx
        exact hgi.congr rfl hgi.task (fun _ => rfl) rfl
    growthApart := by
      intro t₁ t₂ hne b hb
      by_cases h₁ : t₁ = t
      · rw [h₁] at hb hne
        rw [hplaces t₂ (Ne.symm hne)]
        exact hmine b hb t₂ (Ne.symm hne)
      · rw [hplaces t₁ h₁] at hb
        by_cases h₂ : t₂ = t
        · rw [h₂]
          exact fun hc => hmine b hc t₁ h₁ hb
        · rw [hplaces t₂ h₂]
          exact h.growthApart t₁ t₂ hne b hb }

/-- The header of a partition changes, but not its free list. -/
theorem Inv.setPartpool (h : s.Inv) {u : Partpool} (hp : p ∈ s.partitions)
    (hfree : u.freeList = (s.partpool p).freeList)
    (havail : u.available = (s.partpool p).available)
    (hsize : u.blockSize = (s.partpool p).blockSize)
    (hareas : ∀ area ∈ u.areas, s.AreaOf p area) : (s.setPartpool p u).Inv := by
  have hself : (s.setPartpool p u).partpool p = u := Function.update_self _ _ _
  obtain ⟨l, hl⟩ := h.parts p hp
  have hpart : (s.setPartpool p u).PartInv p l := by
    exact {
      linked := by rw [hself, hfree]; exact hl.linked
      nodup := hl.nodup
      freeMade := hl.freeMade
      available := by rw [hself, havail]; exact hl.available
      allocated := hl.allocated
      madeNodup := hl.madeNodup
      header := hl.header
      areas := by
        intro area harea
        rw [hself] at harea
        refine ⟨(hareas area harea).1, ?_⟩
        rw [hself, iblocks_congr hsize]
        exact (hareas area harea).2 }
  exact h.of_part hp hpart rfl rfl rfl (fun q hq => Function.update_of_ne hq _ _)
    (by rw [hself, hsize]) rfl rfl fun _ _ => rfl

theorem Inv.setTotal (h : s.Inv) (hp : p ∈ s.partitions) (total : ℕ) :
    (s.setTotal p total).Inv :=
  h.setPartpool hp rfl rfl rfl (h.areas_of hp)

/-- A complete area goes behind `POOL`. -/
theorem Inv.linkArea (h : s.Inv) (hp : p ∈ s.partitions) {area : PartpoolBlock}
    (harea : s.AreaOf p area) : (s.linkArea p area).Inv := by
  refine h.setPartpool hp rfl rfl rfl fun c hc => ?_
  have hold := h.areas_of hp
  rcases List.mem_cons.mp hc with rfl | hc
  · exact hold _ List.mem_cons_self
  · rcases List.mem_cons.mp hc with rfl | hc
    · exact harea
    · exact hold c (List.mem_cons_of_mem _ hc)

/-- The owner of an allocated block changes. -/
theorem Inv.setBlock (h : s.Inv) (hp : p ∈ s.partitions) (hb : b ∈ s.made p)
    (hal : s.Allocated p b) {header : Iblock} (hlink : header.link = (s.block b).link)
    (hvalid : header.validChecksum = true) (howner : s.IsOwner header.taskId) :
    (s.setBlock b header).Inv := by
  obtain ⟨l, hl⟩ := h.parts p hp
  have hbl : b ∉ l := fun hbl => hl.not_allocated hp h.zero hbl hal
  have hself : (s.setBlock b header).block b = header := Function.update_self _ _ _
  have hother : ∀ c, c ≠ b → (s.setBlock b header).block c = s.block c :=
    fun c hc => Function.update_of_ne hc _ _
  refine h.of_part (l := l) hp ?_ rfl rfl rfl (fun _ _ => rfl) rfl rfl rfl ?_
  · exact {
      linked := hl.linked.congr fun c hc => by rw [hother c (by rintro rfl; exact hbl hc)]
      nodup := hl.nodup
      freeMade := hl.freeMade
      available := hl.available
      allocated := by
        intro c hc hcl
        simp only [Allocated] at hal ⊢
        by_cases hcb : c = b
        · subst hcb
          rw [hself, hlink]
          exact ⟨hal, howner⟩
        · rw [hother c hcb]
          exact hl.allocated c hc hcl
      madeNodup := hl.madeNodup
      header := by
        intro c hc
        by_cases hcb : c = b
        · subst hcb
          rw [hself]
          exact ⟨(hl.header c hc).1, (hl.header c hc).2.1, hvalid⟩
        · rw [hother c hcb]
          exact hl.header c hc
      areas := hl.areas }
  · intro c hc
    exact hother c (by rintro rfl; exact hc hb)

/-- A block is taken for an owner. -/
theorem Inv.take (h : s.Inv) (hp : p ∈ s.partitions) (hlt : (s.made p).length < 2 ^ 32)
    (hav : (s.partpool p).available ≠ 0) (howner : s.IsOwner owner) :
    (s.takeBlock p owner).1.Inv := by
  obtain ⟨l, hl⟩ := h.parts p hp
  cases l with
  | nil => exact absurd hl.available hav
  | cons b l =>
    have hbm : b ∈ s.made p := hl.freeMade b List.mem_cons_self
    have htake := hl.take howner hlt
    have hhead : (s.partpool p).freeList = b := hl.linked.1
    rw [takeBlock_eq (by rw [hhead]; exact (hl.header b hbm).2.2), hhead] at htake ⊢
    refine h.of_part hp htake rfl rfl rfl (fun q hq => Function.update_of_ne hq _ _) ?_ rfl rfl ?_
    · simp only [Function.update_self]
    · intro c hc
      exact Function.update_of_ne (by rintro rfl; exact hc hbm) _ _

/-- The blocks of partition `q` after block `b` was added to `p`. -/
theorem mem_made_addBlock {c : ℕ} :
    c ∈ (s.addBlock p b).made q ↔ c ∈ s.made q ∨ q = p ∧ c = b := by
  rw [addBlock_eq]
  by_cases hq : q = p
  · rw [hq, pushed_made_self]
    simp
  · rw [pushed_made_of_ne hq]
    simp [hq]

theorem addBlock_blockSize :
    ((s.addBlock p b).partpool q).blockSize = (s.partpool q).blockSize := by
  rw [addBlock_eq]
  by_cases hq : q = p
  · rw [hq, pushed_partpool_self]
  · rw [pushed_partpool_of_ne hq]

/-- A new block goes to the free list and is no place of its growth any more. -/
theorem Inv.addBlock (h : s.Inv) {area : PartpoolBlock} {left : ℕ} {o : Option ℕ}
    (hg : s.growing t = some (.adding p area b (left + 1) o))
    (hlt : (s.made p).length + 1 < 2 ^ 32) :
    ((s.addBlock p b).setGrowing t
      (some (.adding p area (add32 b (s.partpool p).blockSize) left o))).Inv := by
  have hgi := h.growth t _ hg
  have hp : p ∈ s.partitions := hgi.part
  have hnodup := List.nodup_cons.mp hgi.nodup
  have hfresh := hgi.fresh b List.mem_cons_self
  have hbt : b ∈ s.places t := by
    rw [places_some hg]
    exact List.mem_cons_self
  have hsub : ∀ c ∈ blocksFrom (s.partpool p).blockSize left (add32 b (s.partpool p).blockSize),
      c ∈ s.places t := by
    intro c hc
    rw [places_some hg]
    exact List.mem_cons_of_mem _ hc
  have hother : ∀ t', t' ≠ t → ((s.addBlock p b).setGrowing t
      (some (.adding p area (add32 b (s.partpool p).blockSize) left o))).places t' =
        s.places t' :=
    fun t' hne => places_congr (Function.update_of_ne hne _ _) fun _ => addBlock_blockSize
  have hself : ((s.addBlock p b).setGrowing t
      (some (.adding p area (add32 b (s.partpool p).blockSize) left o))).places t =
        blocksFrom (s.partpool p).blockSize left (add32 b (s.partpool p).blockSize) := by
    rw [places_some (Function.update_self _ _ _)]
    show blocksFrom ((s.addBlock p b).partpool p).blockSize left _ = _
    rw [addBlock_blockSize]
  exact {
    parts := by
      intro q hq
      obtain ⟨l, hl⟩ := h.parts q hq
      by_cases hqp : q = p
      · subst hqp
        have hbm : b ∉ s.made q := hfresh.2.2 q hq
        have hpushed := hl.pushed (s.block b).taskId (m := s.made q ++ [b])
          (fun hbl => hbm (hl.freeMade b hbl)) hfresh.1 hfresh.2.1 (by simp)
          (List.nodup_append.mpr ⟨hl.madeNodup, by simp, by
            intro c hc d hd
            rw [List.mem_singleton] at hd
            rintro rfl
            exact hbm (hd ▸ hc)⟩)
          (by simpa using hlt) (fun c hc => List.mem_append_left _ hc) (by simp)
        exact ⟨b :: l, hpushed.congr rfl rfl (fun _ _ => rfl) rfl
          fun c hc hcl => (hpushed.allocated c hc hcl).2⟩
      · refine ⟨l, hl.congr (Function.update_of_ne hqp _ _) (Function.update_of_ne hqp _ _) ?_ rfl
          fun c hc hcl => (hl.allocated c hc hcl).2⟩
        intro c hc
        exact Function.update_of_ne (by rintro rfl; exact hfresh.2.2 q hq hc) _ _
    zero := h.zero
    apart := by
      intro q hq r hr hne c hcq hcr
      rcases mem_made_addBlock.mp hcq with hcq | ⟨hqp, hcb⟩
      · rcases mem_made_addBlock.mp hcr with hcr | ⟨-, hcb⟩
        · exact h.apart q hq r hr hne c hcq hcr
        · exact hfresh.2.2 q hq (hcb ▸ hcq)
      · rcases mem_made_addBlock.mp hcr with hcr | ⟨hrp, -⟩
        · exact hfresh.2.2 r hr (hcb ▸ hcr)
        · exact hne (hqp.trans hrp.symm)
    growth := by
      intro t' x hx
      by_cases hne : t' = t
      · subst hne
        have hxe : some (Growth.adding p area (add32 b (s.partpool p).blockSize) left o) = some x :=
          (Function.update_self t' _ s.growing).symm.trans hx
        obtain rfl := Option.some.inj hxe
        exact {
          task := hgi.task
          part := hgi.part
          nodup := by
            show (blocksFrom ((s.addBlock p b).partpool p).blockSize left _).Nodup
            rw [addBlock_blockSize]
            exact hnodup.2
          fresh := by
            show ∀ c ∈ blocksFrom ((s.addBlock p b).partpool p).blockSize left _, _
            rw [addBlock_blockSize]
            intro c hc
            have hold := hgi.fresh c (List.mem_cons_of_mem _ hc)
            refine ⟨hold.1, hold.2.1, fun q hq hcm => ?_⟩
            have hcm : c ∈ s.made q ∨ q = p ∧ c = b := mem_made_addBlock.mp hcm
            rcases hcm with hcm | ⟨-, rfl⟩
            · exact hold.2.2 q hq hcm
            · exact hnodup.1 hc
          area := by
            rintro p' area' b' left' owner' ⟨⟩
            have hold := hgi.area p area b (left + 1) o rfl
            refine ⟨hold.1, fun c hc => ?_⟩
            change c ∈ ((s.addBlock p b).partpool p).iblocks area at hc
            rw [iblocks_congr addBlock_blockSize] at hc
            show c ∈ (s.addBlock p b).made p ∨
              c ∈ blocksFrom ((s.addBlock p b).partpool p).blockSize left _
            rw [addBlock_blockSize, mem_made_addBlock]
            rcases hold.2 c hc with hm | hm
            · exact .inl (.inl hm)
            · rcases List.mem_cons.mp hm with rfl | hm
              · exact .inl (.inr ⟨rfl, rfl⟩)
              · exact .inr hm }
      · have hx : s.growing t' = some x := (Function.update_of_ne hne _ _).symm.trans hx
        have hold := h.growth t' x hx
        have hbt' : b ∉ x.places (s.partpool x.part).blockSize := by
          rw [← places_some hx]
          exact h.growthApart t t' (Ne.symm hne) b hbt
        exact {
          task := hold.task
          part := hold.part
          nodup := by
            show (x.places ((s.addBlock p b).partpool x.part).blockSize).Nodup
            rw [addBlock_blockSize]
            exact hold.nodup
          fresh := by
            show ∀ c ∈ x.places ((s.addBlock p b).partpool x.part).blockSize, _
            rw [addBlock_blockSize]
            intro c hc
            have hc' := hold.fresh c hc
            refine ⟨hc'.1, hc'.2.1, fun q hq hcm => ?_⟩
            have hcm : c ∈ s.made q ∨ q = p ∧ c = b := mem_made_addBlock.mp hcm
            rcases hcm with hcm | ⟨-, rfl⟩
            · exact hc'.2.2 q hq hcm
            · exact hbt' hc
          area := by
            intro p' area' b' left' owner' hx'
            have hold' := hold.area p' area' b' left' owner' hx'
            refine ⟨hold'.1, fun c hc => ?_⟩
            change c ∈ ((s.addBlock p b).partpool p').iblocks area' at hc
            rw [iblocks_congr addBlock_blockSize] at hc
            show c ∈ (s.addBlock p b).made p' ∨
              c ∈ blocksFrom ((s.addBlock p b).partpool p').blockSize left' b'
            rw [addBlock_blockSize, mem_made_addBlock]
            exact (hold'.2 c hc).imp_left .inl }
    growthApart := by
      intro t₁ t₂ hne c hc
      by_cases h₁ : t₁ = t
      · rw [h₁] at hne hc
        rw [hself] at hc
        rw [hother t₂ (Ne.symm hne)]
        exact h.growthApart t t₂ hne c (hsub c hc)
      · rw [hother t₁ h₁] at hc
        by_cases h₂ : t₂ = t
        · rw [h₂, hself]
          rw [h₂] at hne
          exact fun hc' => h.growthApart t₁ t hne c hc (hsub c hc')
        · rw [hother t₂ h₂]
          exact h.growthApart t₁ t₂ hne c hc }

end State

end Mqx.Mem.Partition
