import Mqx.Mfs.FatErrors
import Mqx.Mfs.FileSteps

/-!
# Free clusters

The search of `MFS_Find_unused_cluster_from` against the set of free clusters, and the free count
that `MFS_Get_disk_free_space_internal` computes and `MFS_Put_fat` adjusts.
-/

namespace Mqx.Mfs

variable {d d' : Drive}

/-! ## The search -/

/-- The clusters of the drive in the order of a search from `start`. -/
def searchOrder (v : Volume) (start : ℕ) : List ℕ :=
  List.range' start (v.lastCluster + 1 - start) ++
    List.range' clusterMinGood (min start (v.lastCluster + 1) - clusterMinGood)

/-- The entries can be read one after the other. -/
def ReadsAll : List ℕ → Drive → Prop
  | [], _ => True
  | e :: l, d =>
    (mfsGetClusterFromFat d e).1 = .noError ∧ ReadsAll l (mfsGetClusterFromFat d e).2.2

/-- The entries up to the first free cluster of the list can be read. -/
def ReadsToFree (l : List ℕ) (d : Drive) : Prop :=
  ∃ a x b, l = a ++ x :: b ∧ (∀ e ∈ a, e ∉ freeClusters d) ∧ x ∈ freeClusters d ∧
    ReadsAll (a ++ [x]) d

/-- A search over the clusters of a list. -/
def searchList : List ℕ → Drive → FileState.Search × Drive
  | [], d => (.exhausted, d)
  | e :: l, d =>
    let r := mfsGetClusterFromFat d e
    if r.1 ≠ .noError then (.failed, r.2.2)
    else if r.2.1 = clusterUnused then (.found e, r.2.2)
    else searchList l r.2.2

/-- The cluster that a search returns; `none` is `CLUSTER_INVALID`. -/
def FileState.Search.cluster : FileState.Search → Option ℕ
  | found c => some c
  | failed => none
  | exhausted => none

theorem searchUnused_eq (n : ℕ) : ∀ (c : ℕ) (d : Drive),
    searchUnused n c d = searchList (List.range' c n) d := by
  induction n with
  | zero => exact fun c d => rfl
  | succ n ih =>
    intro c d
    rw [searchUnused, List.range'_succ, searchList]
    simp only [ih]

theorem searchList_append (l' : List ℕ) : ∀ (l : List ℕ) (d : Drive), searchList (l ++ l') d =
    if (searchList l d).1 = .exhausted then searchList l' (searchList l d).2
    else searchList l d := by
  intro l
  induction l with
  | nil => exact fun d => (if_pos rfl).symm
  | cons e l ih =>
    intro d
    rw [List.cons_append, searchList, searchList]
    split
    · rw [if_neg (fun h => nomatch h)]
    · split
      · rw [if_neg (fun h => nomatch h)]
      · exact ih _

/-- Clusters behind the last one end a search. -/
theorem searchList_beyond {l : List ℕ} (h : ∀ e ∈ l, d.vol.lastCluster < e) :
    (searchList l d).1.cluster = none := by
  cases l with
  | nil => rfl
  | cons e l =>
    have hrefused := (mfsGetClusterFromFat_refused (d := d) (c := e)
      (fun hin => absurd (h e List.mem_cons_self) (not_lt.mpr hin.2))).1
    rw [searchList]
    rw [if_pos hrefused]
    rfl

/-! ## Reads -/

theorem mfsFlushFatCache_frame (d : Drive) : ∃ dev dirty io, (mfsFlushFatCache d).2 =
    { d with device := dev, fatCacheDirty := dirty, ioCount := io } := by
  unfold mfsFlushFatCache
  split
  · exact ⟨d.device, d.fatCacheDirty, d.ioCount, rfl⟩
  · split
    · obtain ⟨dev, io, h, -⟩ := flushFatCopies_device d.vol.numberOfFat 0 d
      simp only
      split
      · rw [h]
        exact ⟨dev, false, io, rfl⟩
      · exact ⟨dev, d.fatCacheDirty, io, h⟩
    · exact ⟨d.device, d.fatCacheDirty, d.ioCount, rfl⟩

/-- A read of the table moves the window, whether it works or not. -/
theorem mfsReadFat_frame (d : Drive) (offset : ℕ) : ∃ dev cache start dirty io,
    (mfsReadFat d offset).2 = { d with
      fatCache := cache
      fatCacheStart := start
      fatCacheDirty := dirty
      device := dev
      ioCount := io } := by
  unfold mfsReadFat
  simp only
  split
  · obtain ⟨dev, dirty, io, h⟩ := mfsFlushFatCache_frame d
    split
    · obtain ⟨cache, io', h'⟩ := readFatSectors_cache
        (min (offset / d.vol.sectorSize) (d.vol.fatSize - d.vol.fatCacheSize))
        (mfsFlushFatCache d).2.vol.fatCacheSize 0 (mfsFlushFatCache d).2
      unfold readFatWindow
      simp only
      split
      · rw [h', h]
        exact ⟨dev, cache, _, false, io', rfl⟩
      · rw [h', h]
        exact ⟨dev, cache, d.fatCacheStart, dirty, io', rfl⟩
    · rw [h]
      exact ⟨dev, d.fatCache, d.fatCacheStart, dirty, io, rfl⟩
  · exact ⟨d.device, d.fatCache, d.fatCacheStart, d.fatCacheDirty, d.ioCount, rfl⟩

theorem mfsGetClusterFromFat_frame (d : Drive) (e : ℕ) :
    (mfsGetClusterFromFat d e).2.2.vol = d.vol ∧
      (mfsGetClusterFromFat d e).2.2.ioFault = d.ioFault := by
  obtain ⟨dev, cache, start, dirty, io, h⟩ := mfsReadFat_frame d (fatOffset d.vol.fatType e)
  unfold mfsGetClusterFromFat
  split
  · exact ⟨rfl, rfl⟩
  · split
    · exact ⟨rfl, rfl⟩
    · simp only
      split
      · rw [h]
        exact ⟨rfl, rfl⟩
      · rw [h]
        exact ⟨rfl, rfl⟩

theorem mfsPutFat_frame (d : Drive) (e : ℕ) (code : BitVec 32) :
    (mfsPutFat d e code).2.vol = d.vol ∧ (mfsPutFat d e code).2.ioFault = d.ioFault := by
  obtain ⟨dev, cache, start, dirty, io, h⟩ := mfsReadFat_frame d (fatOffset d.vol.fatType e)
  unfold mfsPutFat
  split
  · exact ⟨rfl, rfl⟩
  · split
    · exact ⟨rfl, rfl⟩
    · split
      · exact ⟨rfl, rfl⟩
      · simp only
        split
        · obtain ⟨free, hfree⟩ := putFatEntry_eq (mfsReadFat d (fatOffset d.vol.fatType e)).2
            (fatOffset d.vol.fatType e -
              (mfsReadFat d (fatOffset d.vol.fatType e)).2.fatCacheStart *
                (mfsReadFat d (fatOffset d.vol.fatType e)).2.vol.sectorSize) e code
          rw [hfree, h]
          exact ⟨rfl, rfl⟩
        · rw [h]
          exact ⟨rfl, rfl⟩

theorem searchList_vol (l : List ℕ) : ∀ d : Drive, (searchList l d).2.vol = d.vol := by
  induction l with
  | nil => exact fun d => rfl
  | cons e l ih =>
    intro d
    have hvol := (mfsGetClusterFromFat_frame d e).1
    rw [searchList]
    split
    · exact hvol
    · split
      · exact hvol
      · exact (ih _).trans hvol

/-- The two loops of the source search the clusters in one order. -/
theorem findUnused_order (s : FileState) (start : ℕ) :
    (s.mfsFindUnusedClusterFrom start).1 = if s.d.vol.readOnly then none else
      (searchList (searchOrder s.d.vol start) s.d).1.cluster := by
  unfold FileState.mfsFindUnusedClusterFrom
  split
  · rfl
  · rw [searchOrder, searchList_append]
    simp only [searchUnused_eq]
    split
    · next c hc => rw [hc, if_neg (by simp), hc, FileState.Search.cluster]
    · next hc => rw [hc, if_neg (by simp), hc, FileState.Search.cluster]
    · next hc =>
      rw [hc, if_pos rfl]
      obtain ⟨d₁, hd₁⟩ : ∃ d₁, (searchList
          (List.range' start (s.d.vol.lastCluster + 1 - start)) s.d).2 = d₁ := ⟨_, rfl⟩
      have hvol : d₁.vol = s.d.vol := by
        rw [← hd₁]
        exact searchList_vol _ _
      rw [hd₁]
      -- the second loop can run past the last cluster, where a read is refused
      have hsplit : List.range' clusterMinGood (start - clusterMinGood) =
          List.range' clusterMinGood (min start (s.d.vol.lastCluster + 1) - clusterMinGood) ++
            List.range' (clusterMinGood +
              (min start (s.d.vol.lastCluster + 1) - clusterMinGood))
              (start - clusterMinGood -
                (min start (s.d.vol.lastCluster + 1) - clusterMinGood)) := by
        rw [List.range'_append_1]
        congr 1
        omega
      obtain ⟨tail, htail, hbeyond⟩ : ∃ tail, List.range' clusterMinGood (start - clusterMinGood) =
          List.range' clusterMinGood (min start (s.d.vol.lastCluster + 1) - clusterMinGood) ++
            tail ∧ ∀ e ∈ tail, s.d.vol.lastCluster < e := by
        refine ⟨_, hsplit, fun e he => ?_⟩
        rw [List.mem_range'_1] at he
        unfold clusterMinGood at he
        omega
      have hrest : (searchList (List.range' clusterMinGood (start - clusterMinGood)) d₁).1.cluster =
          (searchList (List.range' clusterMinGood
            (min start (s.d.vol.lastCluster + 1) - clusterMinGood)) d₁).1.cluster := by
        rw [htail, searchList_append]
        split
        · next hex =>
          rw [hex, searchList_beyond]
          · rfl
          · rw [searchList_vol, hvol]
            exact hbeyond
        · rfl
      rw [← hrest]
      split
      · next c hc => rw [hc, FileState.Search.cluster]
      · next hnone =>
        cases hres : (searchList (List.range' clusterMinGood (start - clusterMinGood)) d₁).1 with
        | found c => exact absurd hres (hnone c)
        | failed => rfl
        | exhausted => rfl

/-- A read of an entry that works. -/
theorem mfsGetClusterFromFat_table (h : d.InSync) {e : ℕ}
    (hget : (mfsGetClusterFromFat d e).1 = .noError) :
    clusterMinGood ≤ e ∧ e ≤ d.vol.lastCluster ∧
      (mfsGetClusterFromFat d e).2.1 = entryCode d e ∧
      (mfsGetClusterFromFat d e).2.2.InSync ∧ SameTable d (mfsGetClusterFromFat d e).2.2 := by
  have m : Mirrors d (fatByte d) := ⟨h, fun _ _ => rfl⟩
  have hcall : (FatCall.get e).exec d = (.noError, some (mfsGetClusterFromFat d e).2.1,
      (mfsGetClusterFromFat d e).2.2) := Prod.ext hget rfl
  obtain ⟨-, hvol, m'⟩ := m.noError hcall
  have hin : clusterMinGood ≤ e ∧ e ≤ d.vol.lastCluster := by
    by_contra hout
    exact (mfsGetClusterFromFat_refused hout).1 hget
  refine ⟨hin.1, hin.2, (mfsGetClusterFromFat_noError h (Prod.ext hget rfl)).2, m'.sync, hvol, ?_⟩
  intro e' he'
  exact rawEntry_congr h.vol hvol (fun o ho => m'.bytes o (by rw [hvol]; exact ho)) he'

/-- A search over a list finds its first free cluster if the entries up to it can be read. -/
theorem searchList_found_iff (l : List ℕ) : ∀ {d : Drive}, d.InSync → ∀ x : ℕ,
    (searchList l d).1 = .found x ↔ ∃ a b, l = a ++ x :: b ∧ (∀ e ∈ a, e ∉ freeClusters d) ∧
      x ∈ freeClusters d ∧ ReadsAll (a ++ [x]) d := by
  induction l with
  | nil =>
    intro d _ x
    constructor
    · exact fun h => nomatch h
    · rintro ⟨a, b, hl, -⟩
      exact absurd hl.symm (by simp)
  | cons e l ih =>
    intro d h x
    rw [searchList]
    by_cases hget : (mfsGetClusterFromFat d e).1 = .noError
    · obtain ⟨hmin, hlast, hvalue, hsync, htable⟩ := mfsGetClusterFromFat_table h hget
      have hfree : entryCode d e = clusterUnused ↔ e ∈ freeClusters d := by
        rw [mem_freeClusters]
        exact ⟨fun hu => ⟨hmin, hlast, hu⟩, fun hm => hm.2.2⟩
      rw [if_neg (not_not.mpr hget), hvalue]
      by_cases hunused : entryCode d e = clusterUnused
      · rw [if_pos hunused]
        constructor
        · intro hx
          have hxe : e = x := by injection hx
          subst hxe
          exact ⟨[], l, rfl, by simp, hfree.mp hunused, hget, trivial⟩
        · rintro ⟨a, b, hl, hused, -, -⟩
          cases a with
          | nil =>
            rw [(List.cons.inj hl).1]
          | cons y a =>
            rw [(List.cons.inj hl).1] at hfree hunused
            exact absurd (hfree.mp hunused) (hused y List.mem_cons_self)
      · rw [if_neg hunused, ih hsync x, htable.freeClusters]
        constructor
        · rintro ⟨a, b, rfl, hused, hx, hreads⟩
          refine ⟨e :: a, b, rfl, ?_, hx, hget, hreads⟩
          intro e' he'
          rcases List.mem_cons.mp he' with rfl | he'
          · exact fun hm => hunused (hfree.mpr hm)
          · exact hused e' he'
        · rintro ⟨a, b, hl, hused, hx, hreads⟩
          cases a with
          | nil =>
            rw [(List.cons.inj hl).1] at hunused hfree
            exact absurd (hfree.mpr hx) hunused
          | cons y a =>
            obtain ⟨rfl, hl'⟩ := List.cons.inj hl
            exact ⟨a, b, hl', fun e' he' => hused e' (List.mem_cons_of_mem _ he'), hx, hreads.2⟩
    · rw [if_pos hget]
      constructor
      · exact fun hx => nomatch hx
      · rintro ⟨a, b, hl, -, -, hreads⟩
        cases a with
        | nil =>
          rw [(List.cons.inj hl).1] at hget
          exact absurd hreads.1 hget
        | cons y a =>
          rw [(List.cons.inj hl).1] at hget
          exact absurd hreads.1 hget

theorem mem_searchOrder {v : Volume} {start e : ℕ} (hstart : clusterMinGood ≤ start) :
    e ∈ searchOrder v start ↔ clusterMinGood ≤ e ∧ e ≤ v.lastCluster := by
  rw [searchOrder, List.mem_append, List.mem_range'_1, List.mem_range'_1]
  omega

theorem readsAll_works (l : List ℕ) : ∀ {d : Drive}, d.InSync → d.Works →
    (∀ e ∈ l, clusterMinGood ≤ e ∧ e ≤ d.vol.lastCluster) → ReadsAll l d := by
  induction l with
  | nil => exact fun _ _ _ => trivial
  | cons e l ih =>
    intro d h w hl
    obtain ⟨hmin, hlast⟩ := hl e List.mem_cons_self
    obtain ⟨d', hget, hsync, hframe, htable⟩ := mfsGetClusterFromFat_works h w.reads hmin hlast
    rw [ReadsAll, hget]
    refine ⟨rfl, ih hsync (hframe.works w) fun e' he' => ?_⟩
    rw [htable.vol]
    exact hl e' (List.mem_cons_of_mem _ he')

/-- On a drive without device errors every search gets to its first free cluster. -/
theorem readsToFree_works (h : d.InSync) (w : d.Works) {start : ℕ} (hstart : clusterMinGood ≤ start)
    (hfree : freeClusters d ≠ ∅) : ReadsToFree (searchOrder d.vol start) d := by
  obtain ⟨c, hc⟩ := Finset.nonempty_iff_ne_empty.mpr hfree
  obtain ⟨hmin, hlast, -⟩ := mem_freeClusters.mp hc
  have hsplit : ∀ l : List ℕ, c ∈ l → ∃ a x b, l = a ++ x :: b ∧
      (∀ e ∈ a, e ∉ freeClusters d) ∧ x ∈ freeClusters d := by
    intro l
    induction l with
    | nil => exact fun hm => absurd hm (by simp)
    | cons e l ih =>
      intro hm
      by_cases he : e ∈ freeClusters d
      · exact ⟨[], e, l, rfl, by simp, he⟩
      · have hne : c ≠ e := fun heq => he (heq ▸ hc)
        obtain ⟨a, x, b, rfl, hused, hx⟩ := ih ((List.mem_cons.mp hm).resolve_left hne)
        refine ⟨e :: a, x, b, rfl, fun e' he' => ?_, hx⟩
        rcases List.mem_cons.mp he' with rfl | he'
        · exact he
        · exact hused e' he'
  obtain ⟨a, x, b, hl, hused, hx⟩ := hsplit _ ((mem_searchOrder hstart).mpr ⟨hmin, hlast⟩)
  refine ⟨a, x, b, hl, hused, hx, readsAll_works _ h w fun e he => ?_⟩
  rw [← mem_searchOrder hstart, hl]
  rcases List.mem_append.mp he with he | he
  · exact List.mem_append_left _ he
  · rw [List.mem_singleton.mp he]
    simp

/-- The search returns a free cluster, or nothing when none is free. -/
def FileState.FindsFree (s : FileState) (start : ℕ) : Prop :=
  (∃ c ∈ freeClusters s.d, (s.mfsFindUnusedClusterFrom start).1 = some c) ∨
    freeClusters s.d = ∅ ∧ (s.mfsFindUnusedClusterFrom start).1 = none

theorem findsFree_iff {s : FileState} (h : s.d.InSync) (start : ℕ) :
    s.FindsFree start ↔ freeClusters s.d = ∅ ∨ s.d.vol.readOnly = false ∧
      clusterMinGood ≤ start ∧ ReadsToFree (searchOrder s.d.vol start) s.d := by
  have hcluster : ∀ (r : FileState.Search) (c : ℕ), r.cluster = some c ↔ r = .found c := by
    intro r c
    cases r with
    | found x =>
      rw [FileState.Search.cluster, Option.some.injEq, FileState.Search.found.injEq]
    | failed => exact ⟨(fun hr => nomatch hr), (fun hr => nomatch hr)⟩
    | exhausted => exact ⟨(fun hr => nomatch hr), (fun hr => nomatch hr)⟩
  have hsome : ∀ c, (s.mfsFindUnusedClusterFrom start).1 = some c ↔ s.d.vol.readOnly = false ∧
      ∃ a b, searchOrder s.d.vol start = a ++ c :: b ∧ (∀ e ∈ a, e ∉ freeClusters s.d) ∧
        c ∈ freeClusters s.d ∧ ReadsAll (a ++ [c]) s.d := by
    intro c
    rw [findUnused_order, ← searchList_found_iff _ h]
    cases hro : s.d.vol.readOnly with
    | true => simp
    | false => simp only [Bool.false_eq_true, if_false, true_and, hcluster]
  constructor
  · rintro (⟨c, hc, hfound⟩ | ⟨hnone, -⟩)
    · obtain ⟨hro, a, b, hl, hused, -, hreads⟩ := (hsome c).mp hfound
      refine Or.inr ⟨hro, ?_, a, c, b, hl, hused, hc, hreads⟩
      -- the first cluster that is read is `start`
      obtain ⟨hmin, hlast, -⟩ := mem_freeClusters.mp hc
      by_contra hlow
      obtain ⟨n, hn⟩ : ∃ n, s.d.vol.lastCluster + 1 - start = n + 1 :=
        ⟨s.d.vol.lastCluster - start, by omega⟩
      rw [searchOrder, hn, List.range'_succ, List.cons_append] at hl
      cases a with
      | nil =>
        rw [← (List.cons.inj hl).1] at hmin
        exact hlow hmin
      | cons y a =>
        rw [← (List.cons.inj hl).1] at hreads
        exact hlow (mfsGetClusterFromFat_table h hreads.1).1
    · exact Or.inl hnone
  · rintro (hnone | ⟨hro, -, a, c, b, hl, hused, hc, hreads⟩)
    · refine Or.inr ⟨hnone, ?_⟩
      cases hres : (s.mfsFindUnusedClusterFrom start).1 with
      | none => rfl
      | some c =>
        obtain ⟨-, a, b, -, -, hc, -⟩ := (hsome c).mp hres
        rw [hnone] at hc
        exact absurd hc (Finset.notMem_empty c)
    · exact Or.inl ⟨c, hc, (hsome c).mpr ⟨hro, a, b, hl, hused, hc, hreads⟩⟩

/-! ## The free count -/

/-- The loop of `MFS_Get_disk_free_space_internal` over `n` clusters from `k` on. -/
def countUnused : ℕ → ℕ → ℕ → Drive → MfsError × ℕ × Drive
  | 0, _, freeSlots, d => (.noError, freeSlots, d)
  | n + 1, k, freeSlots, d =>
    let r := mfsGetClusterFromFat d k
    if r.1 ≠ .noError then (r.1, freeSlots, r.2.2)
    else countUnused n (k + 1) (if r.2.1 = clusterUnused then freeSlots + 1 else freeSlots) r.2.2

/-- Returns the error, the number of free clusters, and the drive. -/
def mfsGetDiskFreeSpaceInternal (d : Drive) : MfsError × ℕ × Drive :=
  if d.freeCount = fsiUnknown then
    let r := countUnused (d.vol.lastCluster + 1 - clusterMinGood) clusterMinGood 0 d
    if r.1 = .noError then (.noError, r.2.1, { r.2.2 with freeCount := r.2.1 }) else r
  else (.noError, d.freeCount, d)

/-- The count is the number of free clusters. -/
def Counted (d : Drive) : Prop := d.freeCount = (freeClusters d).card

theorem countUnused_noError (n : ℕ) : ∀ {k freeSlots slots : ℕ} {d d' : Drive}, d.InSync →
    countUnused n k freeSlots d = (.noError, slots, d') → d'.InSync ∧ SameTable d d' ∧
      slots = freeSlots + ((freeClusters d).filter fun c => k ≤ c ∧ c < k + n).card := by
  induction n with
  | zero =>
    intro k freeSlots slots d d' h hc
    obtain ⟨rfl, rfl⟩ : freeSlots = slots ∧ d = d' :=
      ⟨congrArg (fun r => r.2.1) hc, congrArg (fun r => r.2.2) hc⟩
    refine ⟨h, SameTable.refl d, ?_⟩
    rw [Finset.filter_eq_empty_iff.mpr]
    · rfl
    · intro c _ hck
      omega
  | succ n ih =>
    intro k freeSlots slots d d' h hc
    rw [countUnused] at hc
    by_cases hget : (mfsGetClusterFromFat d k).1 = .noError
    · obtain ⟨hmin, hlast, hvalue, hsync, htable⟩ := mfsGetClusterFromFat_table h hget
      rw [if_neg (not_not.mpr hget), hvalue] at hc
      obtain ⟨hsync', htable', hslots⟩ := ih hsync hc
      refine ⟨hsync', htable.trans htable', ?_⟩
      rw [hslots, htable.freeClusters]
      have hrange : (freeClusters d).filter (fun c => k ≤ c ∧ c < k + (n + 1)) =
          (freeClusters d).filter (fun c => c = k) ∪
            (freeClusters d).filter (fun c => k + 1 ≤ c ∧ c < k + 1 + n) := by
        rw [← Finset.filter_or]
        apply Finset.filter_congr
        intro c _
        omega
      have hapart : Disjoint ((freeClusters d).filter (fun c => c = k))
          ((freeClusters d).filter (fun c => k + 1 ≤ c ∧ c < k + 1 + n)) := by
        rw [Finset.disjoint_filter]
        intro c _ hck
        omega
      rw [hrange, Finset.card_union_of_disjoint hapart, Finset.filter_eq', ← Nat.add_assoc]
      congr 1
      have hfree : k ∈ freeClusters d ↔ entryCode d k = clusterUnused := by
        rw [mem_freeClusters]
        exact ⟨fun hm => hm.2.2, fun hu => ⟨hmin, hlast, hu⟩⟩
      by_cases hunused : entryCode d k = clusterUnused
      · rw [if_pos hunused, if_pos (hfree.mpr hunused), Finset.card_singleton]
      · rw [if_neg hunused, if_neg (fun hm => hunused (hfree.mp hm)), Finset.card_empty,
          Nat.add_zero]
    · rw [if_pos hget] at hc
      exact absurd (congrArg Prod.fst hc) hget

/-- The computed count is the number of free clusters. -/
theorem mfsGetDiskFreeSpaceInternal_noError {n : ℕ} (h : d.InSync) (hunknown : d.freeCount = fsiUnknown)
    (hr : mfsGetDiskFreeSpaceInternal d = (.noError, n, d')) :
    d'.InSync ∧ n = (freeClusters d').card ∧ Counted d' := by
  rw [mfsGetDiskFreeSpaceInternal, if_pos hunknown] at hr
  simp only at hr
  split at hr
  · next hno =>
    obtain ⟨slots, d₁, hc⟩ : ∃ slots d₁, countUnused (d.vol.lastCluster + 1 - clusterMinGood)
        clusterMinGood 0 d = (.noError, slots, d₁) := ⟨_, _, Prod.ext hno rfl⟩
    obtain ⟨hsync, htable, hslots⟩ := countUnused_noError _ h hc
    rw [hc] at hr
    simp only [Prod.mk.injEq, true_and] at hr
    obtain ⟨rfl, rfl⟩ := hr
    have hall : (freeClusters d).filter (fun c => clusterMinGood ≤ c ∧
        c < clusterMinGood + (d.vol.lastCluster + 1 - clusterMinGood)) = freeClusters d := by
      rw [Finset.filter_eq_self]
      intro c hm
      obtain ⟨hmin, hlast, -⟩ := mem_freeClusters.mp hm
      omega
    have hcard : slots = (freeClusters d₁).card := by
      rw [hslots, hall, Nat.zero_add, htable.freeClusters]
    exact ⟨⟨hsync.vol, hsync.window, hsync.dirty, hsync.clean⟩, hcard, hcard⟩
  · next herr => exact absurd (congrArg Prod.fst hr) herr

/-- Only a zero entry is free. -/
theorem clusterNumber_eq_unused_iff (t : FatType) (raw : BitVec 32) :
    clusterNumber t raw = clusterUnused ↔ raw = clusterUnused := by
  have hmax : 0 < (clusterMax t).toNat ∧ (clusterMax t).toNat < 2 ^ 28 := by
    cases t <;> decide
  have hzero : clusterUnused.toNat = 0 := by decide
  rw [← BitVec.toNat_inj, ← BitVec.toNat_inj, clusterNumber_toNat, hzero]
  split <;> omega

theorem mem_freeClusters_raw {e : ℕ} (hmin : clusterMinGood ≤ e) (hlast : e ≤ d.vol.lastCluster) :
    e ∈ freeClusters d ↔ rawEntry d e = clusterUnused := by
  rw [mem_freeClusters, entryCode, clusterNumber_eq_unused_iff, rawEntry]
  exact ⟨fun hm => hm.2.2, fun hr => ⟨hmin, hlast, hr⟩⟩

/-- The count that is kept after a put, by the entry before it. -/
def adjustedCount (count : ℕ) (prev code : BitVec 32) : ℕ :=
  if code = clusterUnused ∧ prev ≠ clusterUnused then (count + 1) % 2 ^ 32
  else if code ≠ clusterUnused ∧ prev = clusterUnused then (count + (2 ^ 32 - 1)) % 2 ^ 32
  else count

theorem mfsPutFat_freeCount (h : d.InSync) (hknown : d.freeCount ≠ fsiUnknown) {e : ℕ}
    {code : BitVec 32} (hp : mfsPutFat d e code = (.noError, d')) :
    d'.freeCount = adjustedCount d.freeCount (rawEntry d e) code := by
  obtain ⟨hmin, hlast, -⟩ := mfsPutFat_noError h hp
  have hro : ¬d.vol.readOnly = true := by
    intro hro
    rw [mfsPutFat, if_pos hro] at hp
    have herr : MfsError.diskIsWriteProtected = .noError := congrArg Prod.fst hp
    cases herr
  rw [mfsPutFat, if_neg hro, if_neg (by omega), if_neg (by omega)] at hp
  simp only at hp
  split at hp
  · next hread =>
    obtain ⟨d₁, hd₁⟩ : ∃ d₁, mfsReadFat d (fatOffset d.vol.fatType e) = (.noError, d₁) :=
      ⟨_, Prod.ext hread rfl⟩
    obtain ⟨hvol, hsync, hc, -, hbytes⟩ := mfsReadFat_noError h (neededEndSector_lt h.vol hlast) hd₁
    obtain ⟨dev, cache, start, dirty, io, hframe⟩ := mfsReadFat_frame d (fatOffset d.vol.fatType e)
    rw [hd₁] at hframe hp
    have hcount : d₁.freeCount = d.freeCount := by
      have hf := congrArg Drive.freeCount hframe
      exact hf
    have hprev : fatRead d₁.vol.fatType d₁.fatCache
        (fatOffset d.vol.fatType e - d₁.fatCacheStart * d₁.vol.sectorSize) e = rawEntry d e := by
      have hcache := fatRead_cache (hvol ▸ h.vol) (e := e) (hvol ▸ hc)
      rw [hvol, fatRead_congr h.vol hlast hbytes] at hcache
      rw [hvol, hcache, rawEntry]
    have hd' := (congrArg Prod.snd hp).symm
    simp only at hd'
    rw [hd', putFatEntry]
    simp only [hprev]
    have hro₁ : ¬d₁.vol.readOnly = true := by rwa [hvol]
    rw [adjustedCount, ← hcount]
    rw [← hcount] at hknown
    split
    · rw [mfsIncrementFreeClusters, if_neg hro₁, if_pos hknown]
    · split
      · rw [mfsDecrementFreeClusters, if_neg hro₁, if_pos hknown]
      · rfl
  · next hread => exact absurd (congrArg Prod.fst hp) hread

/-- Whether or not one cluster is free. -/
theorem card_freeClusters (d : Drive) (e : ℕ) : (freeClusters d).card =
    ((freeClusters d).erase e).card + if e ∈ freeClusters d then 1 else 0 := by
  split
  · next he => exact (Finset.card_erase_add_one he).symm
  · next he => rw [Finset.erase_eq_of_notMem he, Nat.add_zero]

theorem card_freeClusters_lt (h : d.vol.Ok) : (freeClusters d).card < 2 ^ 28 := by
  have hlast := h.last_le
  calc (freeClusters d).card ≤ (Finset.Icc clusterMinGood d.vol.lastCluster).card :=
        Finset.card_filter_le _ _
    _ = d.vol.lastCluster + 1 - clusterMinGood := Nat.card_Icc _ _
    _ < 2 ^ 28 := by omega

/-- The stored entry will be zero when the code is that of a free cluster, and only then. -/
def PutCounts (d : Drive) (e : ℕ) (code : BitVec 32) : Prop :=
  Linkable d e ∧ code.toNat % 2 ^ d.vol.fatType.codeBits = 0 ↔ code = clusterUnused

/-- A put keeps the count right exactly when the entry is zero afterwards if and only if the code
is. -/
theorem Counted.put_iff (h : d.InSync) (hc : Counted d) {e : ℕ} {code : BitVec 32}
    (hp : mfsPutFat d e code = (.noError, d')) : Counted d' ↔ PutCounts d e code := by
  obtain ⟨hmin, hlast, hvol, -⟩ := mfsPutFat_noError h hp
  obtain ⟨hmod, hdiv, hothers⟩ := mfsPutFat_raw h hp
  have hlt := card_freeClusters_lt h.vol
  have hknown : d.freeCount ≠ fsiUnknown := by
    rw [hc]
    have hunknown : fsiUnknown = 0xFFFFFFFF := rfl
    omega
  have hcount := mfsPutFat_freeCount h hknown hp
  have herase : (freeClusters d').erase e = (freeClusters d).erase e := by
    ext c
    rw [Finset.mem_erase, Finset.mem_erase]
    apply and_congr_right
    intro hne
    rw [mem_freeClusters, mem_freeClusters, hvol]
    apply and_congr_right
    intro hcmin
    apply and_congr_right
    intro hclast
    have hraw := hothers c hclast hne
    rw [rawEntry, rawEntry, hvol] at hraw
    rw [entryCode, entryCode, hvol, hraw]
  have hbefore := card_freeClusters d e
  have hafter := card_freeClusters d' e
  rw [herase] at hafter
  have hp0 := mem_freeClusters_raw hmin hlast
  have hp1 := mem_freeClusters_raw (d := d') (e := e) hmin (by rw [hvol]; exact hlast)
  have hzero : rawEntry d' e = clusterUnused ↔
      Linkable d e ∧ code.toNat % 2 ^ d.vol.fatType.codeBits = 0 := by
    have hnat : clusterUnused.toNat = 0 := by decide
    rw [Linkable, ← hdiv, ← hmod, ← BitVec.toNat_inj, hnat]
    constructor
    · intro h0
      rw [h0, Nat.zero_div, Nat.zero_mod]
      exact ⟨rfl, rfl⟩
    · rintro ⟨hd, hm⟩
      have hsplit := Nat.div_add_mod (rawEntry d' e).toNat (2 ^ d.vol.fatType.codeBits)
      rw [hd, hm] at hsplit
      exact hsplit.symm
  rw [PutCounts, ← hzero, Counted, hcount, hafter, hc, adjustedCount]
  by_cases hprev : rawEntry d e = clusterUnused
  · rw [if_pos (hp0.mpr hprev)] at hbefore
    rw [if_neg (fun hb => hb.2 hprev)]
    by_cases hcode : code = clusterUnused
    · rw [if_neg (fun hb => hb.1 hcode)]
      by_cases hq : rawEntry d' e = clusterUnused
      · rw [if_pos (hp1.mpr hq)]
        exact iff_of_true hbefore (iff_of_true hq hcode)
      · rw [if_neg (fun hb => hq (hp1.mp hb))]
        exact iff_of_false (by omega) (fun hb => hq (hb.mpr hcode))
    · rw [if_pos ⟨hcode, hprev⟩]
      by_cases hq : rawEntry d' e = clusterUnused
      · rw [if_pos (hp1.mpr hq)]
        exact iff_of_false (by omega) (fun hb => hcode (hb.mp hq))
      · rw [if_neg (fun hb => hq (hp1.mp hb))]
        exact iff_of_true (by omega) (iff_of_false hq hcode)
  · rw [if_neg (fun hb => hprev (hp0.mp hb))] at hbefore
    rw [if_neg (c := code ≠ clusterUnused ∧ _) (fun hb => hprev hb.2)]
    by_cases hcode : code = clusterUnused
    · rw [if_pos ⟨hcode, hprev⟩]
      by_cases hq : rawEntry d' e = clusterUnused
      · rw [if_pos (hp1.mpr hq)]
        exact iff_of_true (by omega) (iff_of_true hq hcode)
      · rw [if_neg (fun hb => hq (hp1.mp hb))]
        exact iff_of_false (by omega) (fun hb => hq (hb.mpr hcode))
    · rw [if_neg (fun hb => hcode hb.1)]
      by_cases hq : rawEntry d' e = clusterUnused
      · rw [if_pos (hp1.mpr hq)]
        exact iff_of_false (by omega) (fun hb => hcode (hb.mp hq))
      · rw [if_neg (fun hb => hq (hp1.mp hb))]
        exact iff_of_true hbefore (iff_of_false hq hcode)

/-! ## Runs -/

/-- A put that works and keeps the count right, or one that fails without breaking the window. -/
inductive PutStep : Drive → Drive → Prop
  | done {d d' : Drive} {e : ℕ} {code : BitVec 32} (hc : PutCounts d e code)
      (h : mfsPutFat d e code = (.noError, d')) : PutStep d d'
  | failed {d : Drive} {e : ℕ} {code : BitVec 32} (hs : ¬(FatCall.put e code).Breaks d)
      (h : (mfsPutFat d e code).1 ≠ .noError) : PutStep d (mfsPutFat d e code).2

/-- A put that fails leaves the table and the count. -/
theorem mfsPutFat_error (h : d.InSync) {e : ℕ} {code : BitVec 32}
    (hs : ¬(FatCall.put e code).Breaks d) (hp : (mfsPutFat d e code).1 ≠ .noError) :
    (mfsPutFat d e code).2.InSync ∧ SameTable d (mfsPutFat d e code).2 ∧
      (mfsPutFat d e code).2.freeCount = d.freeCount := by
  have m : Mirrors d (fatByte d) := ⟨h, fun _ _ => rfl⟩
  obtain ⟨hvol, m'⟩ := m.error hs hp
  have hvol' : (mfsPutFat d e code).2.vol = d.vol := hvol
  refine ⟨m'.sync, ⟨hvol, fun e' he' => ?_⟩, ?_⟩
  · exact rawEntry_congr h.vol hvol' (fun o ho => m'.bytes o (by rw [hvol]; exact ho)) he'
  · by_cases hin : clusterMinGood ≤ e ∧ e ≤ d.vol.lastCluster ∧
        (d.vol.readOnly = true → ∃ e', FatCall.put e code = .get e')
    · have hdrive := ((FatCall.put e code).exec_reads hin.1 hin.2.1 hin.2.2).2.2 hp
      obtain ⟨dev, cache, start, dirty, io, hframe⟩ :=
        mfsReadFat_frame d (fatOffset d.vol.fatType e)
      have hput : (mfsPutFat d e code).2 = _ := hdrive.trans hframe
      rw [hput]
    · have hput : (mfsPutFat d e code).2 = d := ((FatCall.put e code).exec_refused hin).2
      rw [hput]

theorem Counted.run (h : d.InSync) (hc : Counted d) (hrun : Relation.ReflTransGen PutStep d d') :
    d'.InSync ∧ Counted d' := by
  induction hrun with
  | refl => exact ⟨h, hc⟩
  | tail _ hstep ih =>
    obtain ⟨hsync, hcount⟩ := ih
    cases hstep with
    | done hkeep hp =>
      obtain ⟨-, -, -, hsync', -⟩ := mfsPutFat_noError hsync hp
      exact ⟨hsync', (hcount.put_iff hsync hp).mpr hkeep⟩
    | failed hs hp =>
      obtain ⟨hsync', htable, hsame⟩ := mfsPutFat_error hsync hs hp
      refine ⟨hsync', ?_⟩
      rw [Counted, hsame, htable.freeClusters]
      exact hcount

/-- A search finds a free cluster if there is one exactly when the drive can be written, the search
starts at cluster 2 or later, and the entries up to the first free cluster can be read. Once the
free count has been computed it stays right in every run of puts that each leave a zero entry if
and only if the code is zero. -/
theorem free_search_accounted (s : FileState) (start : ℕ) (h : s.d.InSync) :
    (s.FindsFree start ↔ freeClusters s.d = ∅ ∨ s.d.vol.readOnly = false ∧
      clusterMinGood ≤ start ∧ ReadsToFree (searchOrder s.d.vol start) s.d) ∧
    ∀ (n : ℕ) (d₁ d' : Drive), s.d.freeCount = fsiUnknown →
      mfsGetDiskFreeSpaceInternal s.d = (.noError, n, d₁) → Relation.ReflTransGen PutStep d₁ d' →
      Counted d' ∧ ∀ (e : ℕ) (code : BitVec 32) (d'' : Drive),
        mfsPutFat d' e code = (.noError, d'') → (Counted d'' ↔ PutCounts d' e code) := by
  refine ⟨findsFree_iff h start, fun n d₁ d' hunknown hr hrun => ?_⟩
  obtain ⟨hsync, -, hc⟩ := mfsGetDiskFreeSpaceInternal_noError h hunknown hr
  obtain ⟨hsync', hc'⟩ := hc.run hsync hrun
  exact ⟨hc', fun e code d'' hp => hc'.put_iff hsync' hp⟩

theorem countUnused_works (n : ℕ) : ∀ (freeSlots : ℕ) {k : ℕ} {d : Drive}, d.InSync → d.Works →
    clusterMinGood ≤ k → k + n ≤ d.vol.lastCluster + 1 →
      ∃ slots d', countUnused n k freeSlots d = (.noError, slots, d') ∧ FatFrame d d' := by
  induction n with
  | zero => exact fun _ _ _ _ _ _ _ => ⟨_, _, rfl, FatFrame.refl _⟩
  | succ n ih =>
    intro freeSlots k d h w hmin hlast
    obtain ⟨d₁, hget, hsync, hframe, htable⟩ := mfsGetClusterFromFat_works h w.reads hmin
      (by omega : k ≤ d.vol.lastCluster)
    obtain ⟨slots, d', hc, hframe'⟩ :=
      ih (if entryCode d k = clusterUnused then freeSlots + 1 else freeSlots) hsync (hframe.works w)
        (by omega : clusterMinGood ≤ k + 1) (by rw [htable.vol]; omega)
    refine ⟨slots, d', ?_, hframe.trans hframe'⟩
    rw [countUnused, hget]
    exact hc

/-- On a drive without device errors the count is computed. -/
theorem mfsGetDiskFreeSpaceInternal_works (h : d.InSync) (w : d.Works)
    (hunknown : d.freeCount = fsiUnknown) (hlast : clusterMinGood ≤ d.vol.lastCluster) :
    ∃ n d', mfsGetDiskFreeSpaceInternal d = (.noError, n, d') ∧ d'.Works ∧ SameTable d d' := by
  obtain ⟨slots, d', hc, hframe⟩ := countUnused_works (d.vol.lastCluster + 1 - clusterMinGood)
    0 h w (le_refl clusterMinGood) (by omega)
  obtain ⟨hsync, htable, -⟩ := countUnused_noError _ h hc
  have w' := hframe.works w
  refine ⟨slots, { d' with freeCount := slots }, ?_, ⟨w'.writable, w'.noFault, w'.inDevice⟩,
    htable.vol, htable.entry⟩
  rw [mfsGetDiskFreeSpaceInternal, if_pos hunknown, hc]
  rfl

/-- The drive without an open file, one sector to the cluster. -/
def noFile (d : Drive) : FileState where
  d := d
  layout := ⟨1, d.vol.fatEnd + 32, 3, .writeBack, .writeBack⟩
  nextFreeCluster := clusterMinGood
  dataSectorNumber := 2 ^ 32 - 1
  dataSectorDirty := false
  dataSector := fun _ => 0
  location := 0
  savedPosition := 0
  currentCluster := 0
  previousCluster := 0
  firstCluster := 0
  fileSize := 0
  full := false

theorem filledDrive_works (t : FatType) (fatSize clusters : ℕ) (high : Byte) :
    (filledDrive t fatSize clusters high).Works := by
  refine ⟨rfl, fun _ => rfl, ?_⟩
  simp only [filledDrive, Volume.fatEnd]
  omega

/-- An empty FAT16 drive that is searched from cluster 2. -/
theorem free_search_accounted_empty :
    (noFile (filledDrive .fat16 32 5000 0)).FindsFree clusterMinGood ∧
    ∃ n d₁, mfsGetDiskFreeSpaceInternal (filledDrive .fat16 32 5000 0) = (.noError, n, d₁) ∧
      Counted d₁ := by
  have hsync : (filledDrive .fat16 32 5000 0).InSync :=
    filledDrive_inSync .fat16 0 (by decide) (by decide) (by decide) (by decide)
  have hworks := filledDrive_works .fat16 32 5000 0
  have hspec := free_search_accounted (noFile (filledDrive .fat16 32 5000 0)) clusterMinGood hsync
  have hfree : 2 ∈ freeClusters (filledDrive .fat16 32 5000 0) :=
    mem_freeClusters.mpr ⟨by decide, by decide, by decide⟩
  constructor
  · rw [hspec.1]
    refine Or.inr ⟨rfl, le_refl _, readsToFree_works hsync hworks (le_refl _) ?_⟩
    exact Finset.nonempty_iff_ne_empty.mp ⟨2, hfree⟩
  · obtain ⟨n, d₁, hr, -⟩ := mfsGetDiskFreeSpaceInternal_works hsync hworks rfl (by decide)
    exact ⟨n, d₁, hr, (hspec.2 n d₁ d₁ rfl hr .refl).1⟩

/-- The same drive searched from cluster 0; and a FAT32 drive with a reserved bit set in every
entry, of which one is released after the free count has been computed. -/
theorem free_search_accounted_fails :
    ((noFile (filledDrive .fat16 32 5000 0)).d.InSync ∧
      ¬(noFile (filledDrive .fat16 32 5000 0)).FindsFree 0) ∧
    (filledDrive .fat32 1024 70000 0x10#8).InSync ∧
      ∃ n d₁ d', mfsGetDiskFreeSpaceInternal (filledDrive .fat32 1024 70000 0x10#8) =
          (.noError, n, d₁) ∧
        mfsPutFat d₁ 2 clusterUnused = (.noError, d') ∧ ¬Counted d' := by
  have hsync : (filledDrive .fat16 32 5000 0).InSync :=
    filledDrive_inSync .fat16 0 (by decide) (by decide) (by decide) (by decide)
  have hsync' : (filledDrive .fat32 1024 70000 0x10#8).InSync :=
    filledDrive_inSync .fat32 0x10#8 (by decide) (by decide) (by decide) (by decide)
  refine ⟨⟨hsync, ?_⟩, hsync', ?_⟩
  · have hfree : 2 ∈ freeClusters (filledDrive .fat16 32 5000 0) :=
      mem_freeClusters.mpr ⟨by decide, by decide, by decide⟩
    have hnone : ((noFile (filledDrive .fat16 32 5000 0)).mfsFindUnusedClusterFrom 0).1 = none := by
      decide
    rintro (⟨c, -, hc⟩ | ⟨hempty, -⟩)
    · rw [hnone] at hc
      cases hc
    · exact absurd (hempty ▸ hfree) (Finset.notMem_empty 2)
  · obtain ⟨n, d₁, hr, w₁, htable⟩ := mfsGetDiskFreeSpaceInternal_works hsync'
      (filledDrive_works .fat32 1024 70000 0x10#8) rfl (by decide)
    obtain ⟨hsync₁, -, hc₁⟩ := mfsGetDiskFreeSpaceInternal_noError hsync' rfl hr
    obtain ⟨d', hp, -⟩ := mfsPutFat_works hsync₁ w₁ (le_refl clusterMinGood)
      (by rw [htable.vol]; decide) clusterUnused
    refine ⟨n, d₁, d', hr, hp, fun hcount => ?_⟩
    have hlink := (((hc₁.put_iff hsync₁ hp).mp hcount).mpr rfl).1
    rw [htable.linkable (by decide)] at hlink
    exact absurd hlink (by decide)

end Mqx.Mfs
