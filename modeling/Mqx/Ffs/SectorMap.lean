import Mqx.Ffs.Page
import Mathlib.Tactic

/-!
# Rebuilding the sector map of a block

`buildMapFromMetadata` of `nonsequential_sectors_map.cpp`: the map from logical sectors to pages is
read back from the metadata of the pages.
-/

namespace Mqx.Ffs

open Function (update)

/-- `MAX_BUILD_NSSM_READ_TRIES`. -/
def maxBuildNssmReadTries : ℕ := 2

/-- A block as its metadata is read: the status of a page's read at each try, and what a successful
one gives. -/
structure PageReads where
  status : ℕ → ℕ → RtStatus
  metadata : ℕ → Metadata

/-- Reading until a try succeeds. The argument counts the tries after this one. -/
def readTries (status : ℕ → RtStatus) : ℕ → ℕ → RtStatus
  | 0, iReads => if (status iReads).successOrEccFixed then .success else status iReads
  | left + 1, iReads =>
    if (status iReads).successOrEccFixed then .success else readTries status left (iReads + 1)

/-- The loop of `readMetadata` calls for one page. -/
def PageReads.readMetadata (r : PageReads) (page : ℕ) : RtStatus :=
  readTries (r.status page) (maxBuildNssmReadTries - 1) 0

/-- What the loop over the pages leaves: the error it returned, the map, the page it stopped at, and
its two status variables. -/
structure Scan where
  error : Option RtStatus
  map : PageOrderMap
  sectorIdx : ℕ
  retCode : RtStatus
  retCodeLocal : RtStatus

/-- The loop over the pages. -/
def scanPages (sectorsPerBlock : ℕ) (r : PageReads) :
    ℕ → ℕ → PageOrderMap → ℕ → RtStatus → RtStatus → Scan
  | 0, idx, map, _, retCode, retCodeLocal => ⟨none, map, idx, retCode, retCodeLocal⟩
  | left + 1, idx, map, firstLba, retCode, _ =>
    let retCodeLocal := r.readMetadata idx
    let md := r.metadata idx
    if retCodeLocal ≠ .success then
      scanPages sectorsPerBlock r left (idx + 1) map firstLba retCode retCodeLocal
    else if md.isErased then ⟨none, map, idx, .success, retCodeLocal⟩
    else
      let firstLba := if idx = 0 then md.getLba else firstLba
      if firstLba ≠ md.getLba then ⟨some .lbasInconsistent, map, idx, .success, retCodeLocal⟩
      else if md.getLsi ≥ sectorsPerBlock then
        ⟨some .hsectoridxOutOfRange, map, idx, .success, retCodeLocal⟩
      else
        scanPages sectorsPerBlock r left (idx + 1) (map.setEntry md.getLsi idx) firstLba .success
          retCodeLocal

/-- The status, the map, and `*filledSectorCount` when it is written. -/
structure Built where
  status : RtStatus
  map : PageOrderMap
  filledSectorCount : Option ℕ

/-- The loop and what follows it. `lastOccupied` is the case `kNssmLastPageOccupied`. -/
def buildByScan (sectorsPerBlock : ℕ) (r : PageReads) (map : PageOrderMap) (lastOccupied : Bool)
    (count : Option ℕ) (retCode retCodeLocal : RtStatus) : Built :=
  let s := scanPages sectorsPerBlock r sectorsPerBlock 0 map 0 retCode retCodeLocal
  match s.error with
  | some e => ⟨e, s.map, count⟩
  | none =>
    ⟨if s.retCode = .success then s.retCode else s.retCodeLocal, s.map,
      if lastOccupied then count else some s.sectorIdx⟩

/-- `buildMapFromMetadata`, with the status of `allocateBuffers`. The last page is read first. -/
def buildMapFromMetadata (sectorsPerBlock : ℕ) (allocateBuffers : RtStatus) (map : PageOrderMap)
    (r : PageReads) : Built :=
  if allocateBuffers ≠ .success then ⟨allocateBuffers, map, none⟩
  else
    let last := sectorsPerBlock - 1
    let retCodeLocal := r.readMetadata last
    let md := r.metadata last
    if retCodeLocal ≠ .success then
      buildByScan sectorsPerBlock r map false none allocateBuffers retCodeLocal
    else if md.isErased then
      buildByScan sectorsPerBlock r map false none allocateBuffers retCodeLocal
    else if md.getLsi ≥ sectorsPerBlock then ⟨.hsectoridxOutOfRange, map, none⟩
    else if md.isFlagSet Metadata.kIsInLogicalOrderFlag ∧ md.getLsi = last then
      ⟨.success, PageOrderMap.setSortedOrder sectorsPerBlock, some sectorsPerBlock⟩
    else
      buildByScan sectorsPerBlock r (map.setEntry md.getLsi last) true (some sectorsPerBlock)
        allocateBuffers retCodeLocal

/-- The last number below `count` with a property. -/
def lastBefore (p : ℕ → Bool) : ℕ → Option ℕ
  | 0 => none
  | count + 1 => if p count then some count else lastBefore p count

theorem lastBefore_eq_some {p : ℕ → Bool} {count i : ℕ} :
    lastBefore p count = some i ↔ i < count ∧ p i = true ∧ ∀ j, i < j → j < count → p j = false := by
  induction count with
  | zero => simp [lastBefore]
  | succ count ih =>
    by_cases hp : p count = true
    · simp only [lastBefore, hp, if_true, Option.some.injEq]
      constructor
      · rintro rfl
        exact ⟨Nat.lt_succ_self _, hp, fun j hj hlt => absurd hlt (by omega)⟩
      · rintro ⟨hlt, hpi, hlast⟩
        by_contra hne
        have hfalse := hlast count (by omega) (Nat.lt_succ_self _)
        simp [hp] at hfalse
    · simp only [lastBefore, hp, if_false, ih, Bool.false_eq_true]
      constructor
      · rintro ⟨hlt, hpi, hlast⟩
        refine ⟨by omega, hpi, fun j hj hjlt => ?_⟩
        rcases Nat.lt_succ_iff_lt_or_eq.mp hjlt with hjlt | rfl
        · exact hlast j hj hjlt
        · simpa using hp
      · rintro ⟨hlt, hpi, hlast⟩
        have hne : i ≠ count := by
          rintro rfl
          exact hp hpi
        exact ⟨by omega, hpi, fun j hj hjlt => hlast j hj (by omega)⟩

theorem lastBefore_eq_none {p : ℕ → Bool} {count : ℕ} :
    lastBefore p count = none ↔ ∀ i < count, p i = false := by
  induction count with
  | zero => simp [lastBefore]
  | succ count ih =>
    by_cases hp : p count = true
    · simp only [lastBefore, hp, if_true, reduceCtorEq, false_iff]
      intro h
      have hfalse := h count (Nat.lt_succ_self _)
      simp [hp] at hfalse
    · simp only [lastBefore, hp, if_false, ih, Bool.false_eq_true]
      constructor
      · intro h i hi
        rcases Nat.lt_succ_iff_lt_or_eq.mp hi with hi | rfl
        · exact h i hi
        · simpa using hp
      · intro h i hi
        exact h i (by omega)

/-- Nothing is found behind a bound. -/
theorem lastBefore_extend {p : ℕ → Bool} {a b : ℕ} (hle : a ≤ b)
    (h : ∀ i, a ≤ i → i < b → p i = false) : lastBefore p b = lastBefore p a := by
  induction b with
  | zero =>
    obtain rfl : a = 0 := by omega
    rfl
  | succ b ih =>
    rcases Nat.lt_or_ge a (b + 1) with hlt | hge
    · have hb := h b (by omega) (Nat.lt_succ_self _)
      rw [lastBefore, hb, if_neg (by decide)]
      exact ih (by omega) fun i hi hib => h i hi (by omega)
    · obtain rfl : a = b + 1 := by omega
      rfl

/-- A block whose first pages were written for one logical block, with the results of reading. -/
structure WrittenBlock where
  pagesPerBlock : ℕ
  pages : List Metadata
  lba : ℕ
  status : ℕ → ℕ → RtStatus
  pos : 0 < pagesPerBlock
  bytes : pagesPerBlock ≤ 256
  fits : pages.length ≤ pagesPerBlock
  one_lba : ∀ m ∈ pages, m.getLba = lba
  below : ∀ m ∈ pages, m.getLsi < pagesPerBlock

namespace WrittenBlock

variable (b : WrittenBlock)

/-- The other pages are erased. -/
def reads : PageReads := ⟨b.status, fun i => b.pages.getD i Metadata.erase⟩

/-- The metadata of a page can be read. -/
def Readable (i : ℕ) : Prop := b.reads.readMetadata i = .success

instance (i : ℕ) : Decidable (b.Readable i) := inferInstanceAs (Decidable (_ = _))

/-- A readable page that was written for a sector. -/
def holds (sector i : ℕ) : Bool :=
  i < b.pages.length ∧ b.Readable i ∧ (b.reads.metadata i).getLsi = sector

/-- The last readable page of a sector. -/
def lastPage (sector : ℕ) : Option ℕ := lastBefore (b.holds sector) b.pages.length

/-- `buildMapFromMetadata` on a cleared map. -/
def build : Built :=
  buildMapFromMetadata b.pagesPerBlock .success PageOrderMap.clear b.reads

/-- What the rebuild of a map is for. -/
def Rebuilt : Prop :=
  if ∃ i < b.pagesPerBlock, b.Readable i then
    b.build.status = .success ∧ b.build.map = b.lastPage ∧
      ((∀ i < b.pagesPerBlock, b.Readable i) → b.build.filledSectorCount = some b.pages.length)
  else b.build.status ≠ .success

/-- The last page says that the block is in logical order. -/
def InOrderFlag : Prop :=
  b.pages.length = b.pagesPerBlock ∧ b.Readable (b.pagesPerBlock - 1) ∧
    (b.reads.metadata (b.pagesPerBlock - 1)).isFlagSet Metadata.kIsInLogicalOrderFlag = true ∧
      (b.reads.metadata (b.pagesPerBlock - 1)).getLsi = b.pagesPerBlock - 1

/-- Every page can be read and holds its own sector. -/
def InOrder : Prop :=
  ∀ i < b.pagesPerBlock, b.Readable i ∧ (b.reads.metadata i).getLsi = i

variable {b} {i idx left firstLba : ℕ} {map : PageOrderMap} {retCode retCodeLocal : RtStatus}

theorem metadata_written (hi : i < b.pages.length) : b.reads.metadata i ∈ b.pages := by
  simp [reads, hi]

theorem lba_written (hi : i < b.pages.length) : (b.reads.metadata i).getLba = b.lba :=
  b.one_lba _ (metadata_written hi)

theorem lsi_written (hi : i < b.pages.length) :
    (b.reads.metadata i).getLsi < b.pagesPerBlock :=
  b.below _ (metadata_written hi)

theorem erased_iff : (b.reads.metadata i).isErased = true ↔ b.pages.length ≤ i := by
  constructor
  · intro h
    by_contra hlt
    have hlsi := lsi_written (b := b) (i := i) (by omega)
    have hbytes := b.bytes
    rw [Metadata.isErased_eq_false (by omega)] at h
    exact Bool.false_ne_true h
  · intro h
    simp [reads, h, Metadata.isErased_erase]

theorem holds_iff {sector : ℕ} :
    b.holds sector i = true ↔
      i < b.pages.length ∧ b.Readable i ∧ (b.reads.metadata i).getLsi = sector := by
  simp [holds]

/-- What a scan finds that meets no error. -/
structure Finds (b : WrittenBlock) (early : PageOrderMap) (s : Scan) : Prop where
  error : s.error = none
  retCode : s.retCode = .success
  map : s.map = fun sector => (b.lastPage sector).or (early sector)
  count : (∀ i < b.pagesPerBlock, b.Readable i) → s.sectorIdx = b.pages.length

theorem lastBefore_eq_lastPage (h : b.pages.length ≤ i) (s : ℕ) :
    lastBefore (b.holds s) i = b.lastPage s := by
  refine lastBefore_extend h fun j hj _ => ?_
  rw [← Bool.not_eq_true, holds_iff]
  omega

/-! ## Steps of the loop -/

theorem scan_unreadable (hread : ¬ b.Readable idx) :
    scanPages b.pagesPerBlock b.reads (left + 1) idx map firstLba retCode retCodeLocal =
      scanPages b.pagesPerBlock b.reads left (idx + 1) map firstLba retCode
        (b.reads.readMetadata idx) := by
  rw [scanPages]
  exact if_pos hread

theorem scan_erased (hread : b.Readable idx) (hlen : b.pages.length ≤ idx) :
    scanPages b.pagesPerBlock b.reads (left + 1) idx map firstLba retCode retCodeLocal =
      ⟨none, map, idx, .success, b.reads.readMetadata idx⟩ := by
  rw [scanPages]
  simp only [if_neg (not_not_intro (show b.reads.readMetadata idx = .success from hread)),
    erased_iff.mpr hlen, if_true]

theorem scan_written (hread : b.Readable idx) (hlt : idx < b.pages.length)
    (hfirst : idx = 0 ∨ firstLba = b.lba) :
    scanPages b.pagesPerBlock b.reads (left + 1) idx map firstLba retCode retCodeLocal =
      scanPages b.pagesPerBlock b.reads left (idx + 1)
        (map.setEntry (b.reads.metadata idx).getLsi idx) b.lba .success
          (b.reads.readMetadata idx) := by
  have herased : ¬ (b.reads.metadata idx).isErased = true := by
    rw [erased_iff]
    omega
  have hlsi : ¬ (b.reads.metadata idx).getLsi ≥ b.pagesPerBlock := Nat.not_le.mpr (lsi_written hlt)
  have hlba : (if idx = 0 then b.lba else firstLba) = b.lba := by
    rcases hfirst with hzero | hlba
    · rw [if_pos hzero]
    · rw [hlba, ite_self]
  rw [scanPages]
  simp only [if_neg (not_not_intro (show b.reads.readMetadata idx = .success from hread)),
    if_neg herased, lba_written hlt, hlba, if_neg hlsi, if_neg (not_not_intro (Eq.refl b.lba))]

theorem scan_mismatch (hread : b.Readable idx) (hlt : idx < b.pages.length) (hidx : idx ≠ 0)
    (hfirst : firstLba ≠ b.lba) :
    (scanPages b.pagesPerBlock b.reads (left + 1) idx map firstLba retCode retCodeLocal).error =
      some .lbasInconsistent := by
  have herased : ¬ (b.reads.metadata idx).isErased = true := by
    rw [erased_iff]
    omega
  rw [scanPages]
  simp only [if_neg (not_not_intro (show b.reads.readMetadata idx = .success from hread)),
    if_neg herased, lba_written hlt, if_neg hidx, if_pos hfirst]

/-- The map that is read from the pages before one. -/
def mapBefore (b : WrittenBlock) (early : PageOrderMap) (i : ℕ) : PageOrderMap :=
  fun s => (lastBefore (b.holds s) i).or (early s)

theorem mapBefore_last (early : PageOrderMap) (h : b.pages.length ≤ i) :
    b.mapBefore early i = fun s => (b.lastPage s).or (early s) := by
  funext s
  rw [mapBefore, lastBefore_eq_lastPage h]

theorem mapBefore_skip (early : PageOrderMap) (hskip : ¬ b.Readable i) :
    b.mapBefore early (i + 1) = b.mapBefore early i := by
  funext s
  have hp : ¬ b.holds s i = true := fun hp => hskip (holds_iff.mp hp).2.1
  rw [mapBefore, mapBefore, lastBefore, if_neg hp]

/-- A page is added to the map of the pages before it. -/
theorem mapBefore_succ (early : PageOrderMap) (hi : i < b.pages.length) (hread : b.Readable i) :
    b.mapBefore early (i + 1) = (b.mapBefore early i).setEntry (b.reads.metadata i).getLsi i := by
  have hfits := b.fits
  have hbytes := b.bytes
  funext s
  unfold PageOrderMap.setEntry mapBefore
  by_cases hs : s = (b.reads.metadata i).getLsi
  · have hp : b.holds s i = true := holds_iff.mpr ⟨hi, hread, hs.symm⟩
    have hmod : i % 256 = i := Nat.mod_eq_of_lt (by omega)
    rw [lastBefore, if_pos hp, hmod]
    subst hs
    simp
  · have hp : ¬ b.holds s i = true := fun hp => hs (holds_iff.mp hp).2.2.symm
    rw [lastBefore, if_neg hp, Function.update_of_ne hs]

/-- The loop behind page 0, when the first address that it compares with is that of the pages or
no page is left to compare. -/
theorem scan_finds (early : PageOrderMap) (hidx : 0 < idx) (hleft : left + idx = b.pagesPerBlock)
    (hfirst : firstLba = b.lba ∨ ∀ j, idx ≤ j → j < b.pages.length → ¬ b.Readable j)
    (hcount : (∀ i < b.pagesPerBlock, b.Readable i) → idx ≤ b.pages.length) :
    b.Finds early (scanPages b.pagesPerBlock b.reads left idx (b.mapBefore early idx) firstLba
      .success retCodeLocal) := by
  have hfits := b.fits
  induction left generalizing idx firstLba retCodeLocal with
  | zero =>
    refine ⟨rfl, rfl, mapBefore_last early (by omega), fun hall => ?_⟩
    have hle := hcount hall
    simp only [scanPages]
    omega
  | succ left ih =>
    by_cases hread : b.Readable idx
    · by_cases hlt : idx < b.pages.length
      · have hlba : firstLba = b.lba := by
          rcases hfirst with hfirst | hnone
          · exact hfirst
          · exact absurd hread (hnone idx (Nat.le_refl _) hlt)
        rw [scan_written hread hlt (Or.inr hlba), ← mapBefore_succ early hlt hread]
        exact ih (by omega) (by omega) (Or.inl rfl) fun _ => hlt
      · have hlen : b.pages.length ≤ idx := by omega
        rw [scan_erased hread hlen]
        refine ⟨rfl, rfl, mapBefore_last early hlen, fun hall => ?_⟩
        have hle := hcount hall
        simp only
        omega
    · rw [scan_unreadable hread, ← mapBefore_skip early hread]
      refine ih (by omega) (by omega) ?_ fun hall => absurd (hall idx (by omega)) hread
      exact hfirst.imp_right fun h j hj => h j (by omega)

/-- The loop behind page 0 with another first address, when a written page can be read. -/
theorem scan_inconsistent (hidx : 0 < idx) (hleft : left + idx = b.pagesPerBlock)
    (hfirst : firstLba ≠ b.lba) (hi : idx ≤ i) (hlt : i < b.pages.length) (hread : b.Readable i) :
    (scanPages b.pagesPerBlock b.reads left idx map firstLba retCode retCodeLocal).error =
      some .lbasInconsistent := by
  have hfits := b.fits
  induction left generalizing idx retCode retCodeLocal with
  | zero => omega
  | succ left ih =>
    by_cases hread' : b.Readable idx
    · exact scan_mismatch hread' (by omega) (by omega) hfirst
    · have hne : i ≠ idx := by
        rintro rfl
        exact hread' hread
      rw [scan_unreadable hread']
      exact ih (by omega) (by omega) (by omega)

/-- The first address that is compared with is that of the pages. -/
def FirstKnown (b : WrittenBlock) : Prop :=
  b.Readable 0 ∨ b.lba = 0 ∨ ∀ j < b.pages.length, ¬ b.Readable j

/-- The whole loop. -/
theorem scan_all (early : PageOrderMap) (retCodeLocal : RtStatus) (hfirst : b.FirstKnown) :
    b.Finds early (scanPages b.pagesPerBlock b.reads b.pagesPerBlock 0 early 0 .success
      retCodeLocal) := by
  obtain ⟨left, hleft⟩ : ∃ left, b.pagesPerBlock = left + 1 :=
    Nat.exists_eq_succ_of_ne_zero b.pos.ne'
  have hearly : early = b.mapBefore early 0 := rfl
  have hscan : scanPages b.pagesPerBlock b.reads b.pagesPerBlock 0 early 0 .success retCodeLocal =
      scanPages b.pagesPerBlock b.reads (left + 1) 0 early 0 .success retCodeLocal := by
    rw [← hleft]
  rw [hscan]
  by_cases hread : b.Readable 0
  · by_cases hlt : 0 < b.pages.length
    · rw [scan_written hread hlt (Or.inl rfl)]
      have hmap := mapBefore_succ early hlt hread
      rw [← hearly] at hmap
      rw [← hmap]
      exact scan_finds early (by omega) (by omega) (Or.inl rfl) fun _ => hlt
    · have hlen : b.pages.length ≤ 0 := by omega
      rw [scan_erased hread hlen]
      refine ⟨rfl, rfl, hearly.trans (mapBefore_last early hlen), fun _ => ?_⟩
      simp only
      omega
  · have hmap : b.mapBefore early (0 + 1) = early := mapBefore_skip early hread
    have hrest : left + (0 + 1) = b.pagesPerBlock := by omega
    have hfinds : b.Finds early (scanPages b.pagesPerBlock b.reads left (0 + 1)
        (b.mapBefore early (0 + 1)) 0 .success (b.reads.readMetadata 0)) := by
      refine scan_finds early (Nat.succ_pos 0) hrest ?_ fun hall => absurd (hall 0 b.pos) hread
      rcases hfirst with hzero | hlba | hnone
      · exact absurd hzero hread
      · exact Or.inl hlba.symm
      · exact Or.inr fun j _ hj => hnone j hj
    rw [hmap] at hfinds
    rw [scan_unreadable hread]
    exact hfinds

/-- Without page 0 the addresses of the others are compared with 0. -/
theorem scan_all_inconsistent (map : PageOrderMap) (retCode retCodeLocal : RtStatus)
    (hfirst : ¬ b.FirstKnown) :
    (scanPages b.pagesPerBlock b.reads b.pagesPerBlock 0 map 0 retCode retCodeLocal).error =
      some .lbasInconsistent := by
  obtain ⟨left, hleft⟩ : ∃ left, b.pagesPerBlock = left + 1 :=
    Nat.exists_eq_succ_of_ne_zero b.pos.ne'
  simp only [FirstKnown, not_or, not_forall, Decidable.not_not] at hfirst
  obtain ⟨hzero, hlba, i, hlt, hread⟩ := hfirst
  have hscan : scanPages b.pagesPerBlock b.reads b.pagesPerBlock 0 map 0 retCode retCodeLocal =
      scanPages b.pagesPerBlock b.reads (left + 1) 0 map 0 retCode retCodeLocal := by
    rw [← hleft]
  have hi : i ≠ 0 := by
    rintro rfl
    exact hzero hread
  rw [hscan, scan_unreadable hzero]
  exact scan_inconsistent (by omega) (by omega) (Ne.symm hlba) (by omega) hlt hread

/-! ## The whole function -/

theorem build_inOrder (h : b.InOrderFlag) :
    b.build = ⟨.success, PageOrderMap.setSortedOrder b.pagesPerBlock, some b.pagesPerBlock⟩ := by
  obtain ⟨hfull, hread, hflag, hlsi⟩ := h
  have hpos := b.pos
  have hread' : b.reads.readMetadata (b.pagesPerBlock - 1) = .success := hread
  have herased : ¬ (b.reads.metadata (b.pagesPerBlock - 1)).isErased = true := by
    rw [erased_iff]
    omega
  have hbelow : ¬ b.pagesPerBlock - 1 ≥ b.pagesPerBlock := by omega
  simp only [build, buildMapFromMetadata, if_neg (not_not_intro (Eq.refl RtStatus.success)),
    if_neg (not_not_intro hread'), if_neg herased, hlsi, if_neg hbelow, hflag, and_self, if_true]

/-- Without the flag the block is scanned, with at most the entry of the last page before it. -/
theorem build_scan (h : ¬ b.InOrderFlag) :
    ∃ early lastOccupied count retCodeLocal,
      b.build = buildByScan b.pagesPerBlock b.reads early lastOccupied count .success
        retCodeLocal ∧
      (∀ s, (b.lastPage s).or (early s) = b.lastPage s) ∧
      (lastOccupied = true → count = some b.pages.length) := by
  have hpos := b.pos
  have hfits := b.fits
  have hbytes := b.bytes
  by_cases hread : b.reads.readMetadata (b.pagesPerBlock - 1) = .success
  swap
  · refine ⟨PageOrderMap.clear, false, none, b.reads.readMetadata (b.pagesPerBlock - 1), ?_,
      fun s => Option.or_none, by simp⟩
    simp only [build, buildMapFromMetadata, if_neg (not_not_intro (Eq.refl RtStatus.success)),
      if_pos hread]
  · by_cases herased : (b.reads.metadata (b.pagesPerBlock - 1)).isErased = true
    · refine ⟨PageOrderMap.clear, false, none, b.reads.readMetadata (b.pagesPerBlock - 1), ?_,
        fun s => Option.or_none, by simp⟩
      simp only [build, buildMapFromMetadata, if_neg (not_not_intro (Eq.refl RtStatus.success)),
        if_neg (not_not_intro hread), if_pos herased]
    · have hfull : b.pages.length = b.pagesPerBlock := by
        rw [erased_iff] at herased
        omega
      have hlt : b.pagesPerBlock - 1 < b.pages.length := by omega
      have hlsi : ¬ (b.reads.metadata (b.pagesPerBlock - 1)).getLsi ≥ b.pagesPerBlock := by
        have hlsi := lsi_written hlt
        omega
      have hflag : ¬ ((b.reads.metadata (b.pagesPerBlock - 1)).isFlagSet
          Metadata.kIsInLogicalOrderFlag = true ∧
            (b.reads.metadata (b.pagesPerBlock - 1)).getLsi = b.pagesPerBlock - 1) :=
        fun hflag => h ⟨hfull, hread, hflag⟩
      refine ⟨PageOrderMap.clear.setEntry (b.reads.metadata (b.pagesPerBlock - 1)).getLsi
        (b.pagesPerBlock - 1), true, some b.pagesPerBlock,
        b.reads.readMetadata (b.pagesPerBlock - 1), ?_, ?_, fun _ => by rw [hfull]⟩
      · simp only [build, buildMapFromMetadata, if_neg (not_not_intro (Eq.refl RtStatus.success)),
          if_neg (not_not_intro hread), if_neg herased, if_neg hlsi, if_neg hflag]
      · intro s
        by_cases hs : s = (b.reads.metadata (b.pagesPerBlock - 1)).getLsi
        · have hlast : b.lastPage s = some (b.pagesPerBlock - 1) := by
            refine lastBefore_eq_some.mpr ⟨hlt, holds_iff.mpr ⟨hlt, hread, hs.symm⟩, ?_⟩
            intro j hj hjlt
            omega
          rw [hlast]
          rfl
        · rw [PageOrderMap.setEntry, Function.update_of_ne hs]
          exact Option.or_none

theorem built_of_finds {early : PageOrderMap} {lastOccupied : Bool} {count : Option ℕ}
    (h : b.Finds early (scanPages b.pagesPerBlock b.reads b.pagesPerBlock 0 early 0 .success
      retCodeLocal))
    (hearly : ∀ s, (b.lastPage s).or (early s) = b.lastPage s)
    (hcount : lastOccupied = true → count = some b.pages.length) :
    let built := buildByScan b.pagesPerBlock b.reads early lastOccupied count .success retCodeLocal
    built.status = .success ∧ built.map = b.lastPage ∧
      ((∀ i < b.pagesPerBlock, b.Readable i) → built.filledSectorCount = some b.pages.length) := by
  have hmap : (scanPages b.pagesPerBlock b.reads b.pagesPerBlock 0 early 0 .success
      retCodeLocal).map = b.lastPage := by
    rw [h.map]
    funext s
    exact hearly s
  simp only [buildByScan, h.error, h.retCode, if_true]
  refine ⟨trivial, hmap, fun hall => ?_⟩
  cases lastOccupied with
  | false => simp [h.count hall]
  | true => simp [hcount rfl]

/-- The map in logical order is that of a block whose pages are. -/
theorem setSortedOrder_iff (hfull : b.pages.length = b.pagesPerBlock) :
    PageOrderMap.setSortedOrder b.pagesPerBlock = b.lastPage ↔ b.InOrder := by
  have hbytes := b.bytes
  constructor
  · intro h i hi
    have hlast : b.lastPage i = some i := by
      rw [← h, PageOrderMap.setSortedOrder, if_pos hi, Nat.mod_eq_of_lt (by omega)]
    obtain ⟨-, hp, -⟩ := lastBefore_eq_some.mp hlast
    exact (holds_iff.mp hp).2
  · intro h
    funext s
    unfold PageOrderMap.setSortedOrder
    by_cases hs : s < b.pagesPerBlock
    · rw [if_pos hs, Nat.mod_eq_of_lt (by omega)]
      refine (lastBefore_eq_some.mpr ⟨by omega, holds_iff.mpr ⟨by omega, h s hs⟩, ?_⟩).symm
      intro j hj hjlt
      rw [← Bool.not_eq_true, holds_iff]
      rintro ⟨-, -, hlsi⟩
      have hown := (h j (by omega)).2
      omega
    · rw [if_neg hs]
      refine (lastBefore_eq_none.mpr fun j hj => ?_).symm
      rw [← Bool.not_eq_true, holds_iff]
      rintro ⟨hlt, -, hlsi⟩
      have hbelow := lsi_written hlt
      omega

end WrittenBlock

end Mqx.Ffs
