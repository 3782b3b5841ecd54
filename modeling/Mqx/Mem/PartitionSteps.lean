import Mqx.Mem.PartitionInv

/-!
# Steps of the partitions

What each step does to the free list of the partition that it is about; everything else is as
it was.
-/

namespace Mqx.Mem.Partition

open Function (update)
open PointerList

@[simp] theorem Iblock.calcChecksum_link (b : Iblock) : b.calcChecksum.link = b.link := rfl

@[simp] theorem Iblock.calcChecksum_taskId (b : Iblock) : b.calcChecksum.taskId = b.taskId := rfl

theorem Iblock.calcChecksum_valid (b : Iblock) : b.calcChecksum.validChecksum = true := by
  simp [Iblock.calcChecksum, Iblock.validChecksum]

theorem add32_one {n : ℕ} (h : n + 1 < 2 ^ 32) : add32 n 1 = n + 1 := Nat.mod_eq_of_lt h

theorem sub32_eq {a b : ℕ} (hle : b ≤ a) (hlt : a < 2 ^ 32) : sub32 a b = a - b := by
  simp only [sub32]
  omega

namespace State

variable {s s' : State} {p q b t id owner : ℕ} {l : List ℕ}

/-- The state after a block has gone to the free list of a partition that has the blocks `m`. -/
def pushed (s : State) (p b id : ℕ) (m : List ℕ) : State :=
  { s.pushBlock p b id with made := update s.made p m }

@[simp] theorem pushed_growing {m : List ℕ} : (s.pushed p b id m).growing = s.growing := rfl
@[simp] theorem pushed_partitions {m : List ℕ} :
    (s.pushed p b id m).partitions = s.partitions := rfl
@[simp] theorem pushed_tasks {m : List ℕ} : (s.pushed p b id m).tasks = s.tasks := rfl
@[simp] theorem pushed_systemTaskId {m : List ℕ} :
    (s.pushed p b id m).systemTaskId = s.systemTaskId := rfl

theorem pushBlock_eq : s.pushBlock p b id = s.pushed p b id (s.made p) := by
  simp [pushed, pushBlock]

theorem addBlock_eq :
    s.addBlock p b = s.pushed p b (s.block b).taskId (s.made p ++ [b]) := rfl

theorem pushed_block_self {m : List ℕ} : (s.pushed p b id m).block b =
    Iblock.calcChecksum { s.block b with link := (s.partpool p).freeList, taskId := id } := by
  simp [pushed, pushBlock]

theorem pushed_block_of_ne {m : List ℕ} {c : ℕ} (h : c ≠ b) :
    (s.pushed p b id m).block c = s.block c := by
  simp [pushed, pushBlock, h]

theorem pushed_partpool_of_ne {m : List ℕ} (h : q ≠ p) :
    (s.pushed p b id m).partpool q = s.partpool q := by
  simp [pushed, pushBlock, h]

theorem pushed_partpool_self {m : List ℕ} : (s.pushed p b id m).partpool p =
    { s.partpool p with freeList := b, available := add32 (s.partpool p).available 1 } := by
  simp [pushed, pushBlock]

theorem pushed_made_self {m : List ℕ} : (s.pushed p b id m).made p = m := by
  simp [pushed]

theorem pushed_made_of_ne {m : List ℕ} (h : q ≠ p) : (s.pushed p b id m).made q = s.made q := by
  simp [pushed, h]

/-- A block that is not free goes to the front of the free list. It may be a new one. -/
theorem PartInv.pushed (h : s.PartInv p l) (id : ℕ) {m : List ℕ} (hb : b ∉ l) (hb0 : b ≠ 0)
    (hbp : b ∉ s.partitions) (hbm : b ∈ m) (hm : m.Nodup) (hlt : m.length < 2 ^ 32)
    (hold : ∀ c ∈ s.made p, c ∈ m) (hnew : ∀ c ∈ m, c ∈ s.made p ∨ c = b) :
    (s.pushed p b id m).PartInv p (b :: l) where
  linked := by
    rw [pushed_partpool_self]
    refine ⟨rfl, ?_⟩
    show Linked _ ((s.pushed p b id m).block b).link l 0
    rw [pushed_block_self]
    refine h.linked.congr fun c hc => ?_
    rw [pushed_block_of_ne (by rintro rfl; exact hb hc)]
  nodup := List.nodup_cons.mpr ⟨hb, h.nodup⟩
  freeMade := by
    rw [pushed_made_self]
    intro c hc
    rcases List.mem_cons.mp hc with rfl | hc
    · exact hbm
    · exact hold c (h.freeMade c hc)
  available := by
    have hsub : (b :: l).length ≤ m.length := by
      refine ((List.nodup_cons.mpr ⟨hb, h.nodup⟩).subperm fun c hc => ?_).length_le
      rcases List.mem_cons.mp hc with rfl | hc
      · exact hbm
      · exact hold c (h.freeMade c hc)
    rw [List.length_cons] at hsub
    rw [pushed_partpool_self, List.length_cons]
    show add32 (s.partpool p).available 1 = _
    rw [h.available, add32_one (by omega)]
  allocated := by
    rw [pushed_made_self]
    intro c hc hl
    have hcb : c ≠ b := fun hcb => hl (by simp [hcb])
    have hcl : c ∉ l := fun hcl => hl (List.mem_cons_of_mem _ hcl)
    have hcm := (hnew c hc).resolve_right hcb
    simp only [Allocated, IsOwner]
    rw [pushed_block_of_ne hcb]
    exact h.allocated c hcm hcl
  madeNodup := by rw [pushed_made_self]; exact hm
  header := by
    rw [pushed_made_self]
    intro c hc
    by_cases hcb : c = b
    · subst hcb
      rw [pushed_block_self]
      exact ⟨hb0, hbp, Iblock.calcChecksum_valid _⟩
    · rw [pushed_block_of_ne hcb]
      exact h.header c ((hnew c hc).resolve_right hcb)
  areas := by
    simp only [AreaOf]
    rw [pushed_partpool_self, pushed_made_self]
    intro area harea
    have ha := h.areas area harea
    exact ⟨ha.1, fun c hc => hold c (ha.2 c hc)⟩

/-- The header of a block that has been taken. -/
theorem takeBlock_eq (hvalid : (s.block (s.partpool p).freeList).validChecksum = true) :
    (s.takeBlock p owner).1 =
      { s with
        block := update s.block (s.partpool p).freeList
          (Iblock.calcChecksum { s.block (s.partpool p).freeList with link := p, taskId := owner })
        partpool := update s.partpool p
          { s.partpool p with
            freeList := (s.block (s.partpool p).freeList).link
            available := sub32 (s.partpool p).available 1
            maxBlocksUsed := max (s.partpool p).maxBlocksUsed
              (sub32 (s.partpool p).totalBlocks (sub32 (s.partpool p).available 1)) } } := by
  have hmax : ∀ a b : ℕ, (if a > b then a else b) = max b a := by
    intro a b
    split <;> omega
  simp only [takeBlock, hvalid, Bool.not_true, Bool.false_eq_true, if_false, hmax]

/-- The first free block is taken. -/
theorem PartInv.take (h : s.PartInv p (b :: l)) (howner : s.IsOwner owner)
    (hlt : (s.made p).length < 2 ^ 32) : (s.takeBlock p owner).1.PartInv p l := by
  have hhead : (s.partpool p).freeList = b := h.linked.1
  have hbm : b ∈ s.made p := h.freeMade b List.mem_cons_self
  have hnodup := List.nodup_cons.mp h.nodup
  have hne : ∀ c ∈ l, c ≠ b := by
    rintro c hc rfl
    exact hnodup.1 hc
  have hlen : (b :: l).length ≤ (s.made p).length :=
    (h.nodup.subperm h.freeMade).length_le
  rw [takeBlock_eq (by rw [hhead]; exact (h.header b hbm).2.2), hhead]
  exact {
    linked := by
      simp only [Function.update_self]
      refine h.linked.2.congr fun c hc => ?_
      rw [Function.update_of_ne (hne c hc)]
    nodup := hnodup.2
    freeMade := fun c hc => h.freeMade c (List.mem_cons_of_mem _ hc)
    available := by
      simp only [Function.update_self]
      have hav : (s.partpool p).available = l.length + 1 := h.available
      rw [List.length_cons] at hlen
      rw [hav, sub32_eq (Nat.le_add_left 1 _) (hlen.trans_lt hlt), Nat.add_sub_cancel]
    allocated := by
      intro c hc hl
      simp only [Allocated, IsOwner]
      by_cases hcb : c = b
      · subst hcb
        rw [Function.update_self]
        exact ⟨rfl, howner⟩
      · rw [Function.update_of_ne hcb]
        refine h.allocated c hc fun hmem => ?_
        rcases List.mem_cons.mp hmem with rfl | hmem
        · exact hcb rfl
        · exact hl hmem
    madeNodup := h.madeNodup
    header := by
      intro c hc
      by_cases hcb : c = b
      · subst hcb
        simp only [Function.update_self]
        exact ⟨(h.header c hc).1, (h.header c hc).2.1, Iblock.calcChecksum_valid _⟩
      · simp only [Function.update_of_ne hcb]
        exact h.header c hc
    areas := by
      have hareas := h.areas
      simp only [AreaOf, Partpool.areas, Partpool.iblocks, Function.update_self] at hareas ⊢
      exact hareas }

theorem iblocks_congr {u v : Partpool} (h : u.blockSize = v.blockSize) (area : PartpoolBlock) :
    u.iblocks area = v.iblocks area := by
  simp only [Partpool.iblocks, h]

theorem GrowthInv.congr {g : Growth} (h : s.GrowthInv t g) (hparts : s'.partitions = s.partitions)
    (htasks : t ∈ s'.tasks) (hsize : ∀ q, (s'.partpool q).blockSize = (s.partpool q).blockSize)
    (hmade : s'.made = s.made) : s'.GrowthInv t g where
  task := htasks
  part := by rw [hparts]; exact h.part
  nodup := by rw [hsize]; exact h.nodup
  fresh := by rw [hsize, hparts, hmade]; exact h.fresh
  area := by
    intro p area b left owner hg
    rw [hsize, hmade, iblocks_congr (hsize p)]
    exact h.area p area b left owner hg

theorem places_congr (hgrow : s'.growing t = s.growing t)
    (hsize : ∀ q, (s'.partpool q).blockSize = (s.partpool q).blockSize) :
    s'.places t = s.places t := by
  simp only [places, hgrow]
  cases s.growing t with
  | none => rfl
  | some g =>
    show g.places _ = g.places _
    rw [hsize]

/-- A step that leaves the growths alone is right when it is for every free list. -/
theorem Inv.of_parts (h : s.Inv) (hparts : s'.partitions = s.partitions)
    (htasks : s.tasks ⊆ s'.tasks)
    (hsize : ∀ q, (s'.partpool q).blockSize = (s.partpool q).blockSize)
    (hmade : s'.made = s.made) (hgrow : s'.growing = s.growing)
    (hinv : ∀ p ∈ s.partitions, ∃ l, s'.PartInv p l) : s'.Inv where
  parts := by rw [hparts]; exact hinv
  zero := by rw [hparts]; exact h.zero
  apart := by rw [hparts, hmade]; exact h.apart
  growth := by
    rw [hgrow]
    intro t g hg
    have hgi := h.growth t g hg
    exact hgi.congr hparts (htasks hgi.task) hsize hmade
  growthApart := by
    intro t t' hne
    rw [places_congr (congrFun hgrow t) hsize, places_congr (congrFun hgrow t') hsize]
    exact h.growthApart t t' hne

/-- A step that only changes the header of one partition and the headers of its blocks. -/
theorem Inv.of_part (h : s.Inv) (hp : p ∈ s.partitions) (hl : s'.PartInv p l)
    (hparts : s'.partitions = s.partitions) (htasks : s'.tasks = s.tasks)
    (hsystem : s'.systemTaskId = s.systemTaskId)
    (hpool : ∀ q, q ≠ p → s'.partpool q = s.partpool q)
    (hsize : (s'.partpool p).blockSize = (s.partpool p).blockSize)
    (hmade : s'.made = s.made) (hgrow : s'.growing = s.growing)
    (hblock : ∀ c, c ∉ s.made p → s'.block c = s.block c) : s'.Inv := by
  refine h.of_parts hparts (by rw [htasks]) (fun q => ?_) hmade hgrow fun q hq => ?_
  · by_cases hqp : q = p
    · rw [hqp, hsize]
    · rw [hpool q hqp]
  · by_cases hqp : q = p
    · exact ⟨l, hqp ▸ hl⟩
    · obtain ⟨lq, hlq⟩ := h.parts q hq
      refine ⟨lq, hlq.congr (hpool q hqp) (congrFun hmade q) (fun c hc => ?_) hparts ?_⟩
      · exact hblock c (h.apart q hq p hp hqp c hc)
      · intro c hc hcl
        simp only [IsOwner, htasks, hsystem]
        exact (hlq.allocated c hc hcl).2

/-- Blocks go back to their free lists: nothing else happens. -/
structure Shrunk (s s' : State) : Prop where
  partitions : s'.partitions = s.partitions
  tasks : s'.tasks = s.tasks
  systemTaskId : s'.systemTaskId = s.systemTaskId
  growing : s'.growing = s.growing
  made : s'.made = s.made
  partpool : ∀ p, ∃ f a, s'.partpool p = { s.partpool p with freeList := f, available := a }
  kept : ∀ p ∈ s.partitions, ∀ b ∈ s.made p, s'.Allocated p b → s'.block b = s.block b

theorem Shrunk.refl (s : State) : Shrunk s s where
  partitions := rfl
  tasks := rfl
  systemTaskId := rfl
  growing := rfl
  made := rfl
  partpool := fun _ => ⟨_, _, rfl⟩
  kept := fun _ _ _ _ _ => rfl

theorem Shrunk.trans {s'' : State} (h : Shrunk s s') (h' : Shrunk s' s'') : Shrunk s s'' where
  partitions := h'.partitions.trans h.partitions
  tasks := h'.tasks.trans h.tasks
  systemTaskId := h'.systemTaskId.trans h.systemTaskId
  growing := h'.growing.trans h.growing
  made := h'.made.trans h.made
  partpool := by
    intro p
    obtain ⟨f, a, hfa⟩ := h.partpool p
    obtain ⟨f', a', hfa'⟩ := h'.partpool p
    exact ⟨f', a', by rw [hfa', hfa]⟩
  kept := by
    intro p hp b hb hal
    have h2 := h'.kept p (by rw [h.partitions]; exact hp) b (by rw [h.made]; exact hb) hal
    have hal' : s'.Allocated p b := by
      simp only [Allocated] at hal ⊢
      rw [← h2]
      exact hal
    rw [h2, h.kept p hp b hb hal']

/-- An allocated block goes back to the free list. -/
theorem Inv.push (h : s.Inv) (id : ℕ) (hp : p ∈ s.partitions) (hb : b ∈ s.made p)
    (hal : s.Allocated p b) (hlt : (s.made p).length < 2 ^ 32) :
    (s.pushBlock p b id).Inv ∧ Shrunk s (s.pushBlock p b id) := by
  obtain ⟨l, hl⟩ := h.parts p hp
  have hbl : b ∉ l := fun hbl => hl.not_allocated hp h.zero hbl hal
  have hheader := hl.header b hb
  rw [pushBlock_eq]
  constructor
  · refine h.of_part hp (hl.pushed id hbl hheader.1 hheader.2.1 hb hl.madeNodup hlt (fun _ hc => hc)
      fun _ hc => .inl hc) rfl rfl rfl (fun q hq => pushed_partpool_of_ne hq) ?_ ?_ rfl ?_
    · rw [pushed_partpool_self]
    · exact Function.update_eq_self p s.made
    · intro c hc
      exact pushed_block_of_ne (by rintro rfl; exact hc hb)
  · exact {
      partitions := rfl
      tasks := rfl
      systemTaskId := rfl
      growing := rfl
      made := Function.update_eq_self p s.made
      partpool := by
        intro q
        by_cases hq : q = p
        · rw [hq, pushed_partpool_self]
          exact ⟨_, _, rfl⟩
        · rw [pushed_partpool_of_ne hq]
          exact ⟨_, _, rfl⟩
      kept := by
        intro q hq c hc halc
        by_cases hcb : c = b
        · subst hcb
          have hqp : q = p := by
            by_contra hne
            exact h.apart q hq p hp hne c hc hb
          simp only [Allocated] at halc
          rw [pushed_block_self, Iblock.calcChecksum_link, hqp] at halc
          exact absurd halc (hl.freeList_ne hp h.zero)
        · exact pushed_block_of_ne hcb }

theorem Shrunk.inUse_le (h : Shrunk s s') (hp : p ∈ s.partitions) : s'.inUse p ≤ s.inUse p := by
  simp only [inUse, h.made]
  refine List.countP_mono_left fun b hb hal => ?_
  have hal' : s'.Allocated p b := of_decide_eq_true hal
  have hblock := h.kept p hp b hb hal'
  have hold : s.Allocated p b := by
    simp only [Allocated] at hal' ⊢
    rw [← hblock]
    exact hal'
  exact decide_eq_true hold

theorem Shrunk.counted (h : Shrunk s s') (hc : s.Counted p) : s'.Counted p := by
  obtain ⟨f, a, hfa⟩ := h.partpool p
  simp only [Counted, pending, h.made, h.tasks, h.growing]
  rw [hfa]
  exact hc

end State

end Mqx.Mem.Partition
