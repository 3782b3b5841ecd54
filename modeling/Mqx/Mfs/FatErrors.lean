import Mathlib.Logic.Relation
import Mqx.Mfs.Fat

/-!
# The window of the table under device errors

Reads and writes of entries through the window against the same reads and writes of a table
without one. A flush that fails keeps the window and its mark, and the sectors it has spoilt are
those the window stands for. A reload that fails leaves other bytes in the window, which is
harmless as long as the window names no sectors.
-/

namespace Mqx.Mfs

/-! ## Failed flushes -/

theorem mfsWriteDeviceSector_device (d : Drive) (s pos : ℕ) :
    ∃ dev io, (mfsWriteDeviceSector d s pos).2 = { d with device := dev, ioCount := io } ∧
      ∀ t ≠ s, dev t = d.device t := by
  unfold mfsWriteDeviceSector
  split
  · exact ⟨d.device, d.ioCount, rfl, fun _ _ => rfl⟩
  · split
    · exact ⟨d.device, d.ioCount, rfl, fun _ _ => rfl⟩
    · split
      · exact ⟨_, _, rfl, fun t ht => Function.update_of_ne ht _ _⟩
      · exact ⟨_, _, rfl, fun t ht => Function.update_of_ne ht _ _⟩

theorem flushFatSectors_device (fat n : ℕ) : ∀ (i : ℕ) (d : Drive),
    ∃ dev io, (flushFatSectors fat n i d).2 = { d with device := dev, ioCount := io } ∧
      ∀ s, ¬(d.vol.fatStartSector + d.fatCacheStart + fat * d.vol.fatSize + i ≤ s ∧
        s < d.vol.fatStartSector + d.fatCacheStart + fat * d.vol.fatSize + (i + n)) →
        dev s = d.device s := by
  induction n with
  | zero =>
    intro i d
    exact ⟨d.device, d.ioCount, rfl, fun _ _ => rfl⟩
  | succ n ih =>
    intro i d
    obtain ⟨dev₁, io₁, h1, hdev₁⟩ := mfsWriteDeviceSector_device d
      (d.vol.fatStartSector + d.fatCacheStart + i + fat * d.vol.fatSize) (d.vol.sectorSize * i)
    unfold flushFatSectors
    simp only
    split
    · rw [h1]
      obtain ⟨dev, io, h2, hdev⟩ := ih (i + 1) { d with device := dev₁, ioCount := io₁ }
      refine ⟨dev, io, h2, fun s hs => ?_⟩
      simp only at hdev
      rw [hdev s (by omega), hdev₁ s (by omega)]
    · exact ⟨dev₁, io₁, h1, fun s hs => hdev₁ s (by omega)⟩

/-- Of the first copy only the sectors of the window can change. -/
theorem flushFatCopies_device (m : ℕ) : ∀ (fat : ℕ) (d : Drive),
    ∃ dev io, (flushFatCopies m fat d).2 = { d with device := dev, ioCount := io } ∧
      ∀ s < d.vol.fatStartSector + d.vol.fatSize,
        ¬(d.vol.fatStartSector + d.fatCacheStart ≤ s ∧
          s < d.vol.fatStartSector + d.fatCacheStart + d.vol.fatCacheSize) →
        dev s = d.device s := by
  induction m with
  | zero =>
    intro fat d
    exact ⟨d.device, d.ioCount, rfl, fun _ _ _ => rfl⟩
  | succ m ih =>
    intro fat d
    obtain ⟨dev₁, io₁, h1, hdev₁⟩ := flushFatSectors_device fat d.vol.fatCacheSize 0 d
    have hfirst : ∀ s < d.vol.fatStartSector + d.vol.fatSize,
        ¬(d.vol.fatStartSector + d.fatCacheStart ≤ s ∧
          s < d.vol.fatStartSector + d.fatCacheStart + d.vol.fatCacheSize) →
        dev₁ s = d.device s := by
      intro s hs hout
      apply hdev₁
      cases fat with
      | zero => omega
      | succ fat =>
        have hbehind : d.vol.fatSize ≤ (fat + 1) * d.vol.fatSize :=
          Nat.le_mul_of_pos_left _ (Nat.zero_lt_succ fat)
        omega
    unfold flushFatCopies
    simp only
    split
    · rw [h1]
      obtain ⟨dev, io, h2, hdev⟩ := ih (fat + 1) { d with device := dev₁, ioCount := io₁ }
      exact ⟨dev, io, h2, fun s hs hout => (hdev s hs hout).trans (hfirst s hs hout)⟩
    · exact ⟨dev₁, io₁, h1, hfirst⟩

/-- A flush that fails leaves the window marked and the table as it was. -/
theorem mfsFlushFatCache_error {d : Drive} (h : d.InSync) (hf : (mfsFlushFatCache d).1 ≠ .noError) :
    (mfsFlushFatCache d).2.InSync ∧ (mfsFlushFatCache d).2.vol = d.vol ∧
      ∀ o, o / d.vol.sectorSize < d.vol.fatSize → fatByte (mfsFlushFatCache d).2 o = fatByte d o := by
  obtain ⟨dev, io, h1, hdev⟩ := flushFatCopies_device d.vol.numberOfFat 0 d
  have hdirty : d.fatCacheDirty = true := by
    by_contra hclean
    apply hf
    rw [mfsFlushFatCache, if_neg hclean, ite_self]
  obtain ⟨hro, hin⟩ := h.dirty hdirty
  have hflush : mfsFlushFatCache d = flushFatCopies d.vol.numberOfFat 0 d := by
    unfold mfsFlushFatCache at hf ⊢
    simp only [hro, hdirty, if_true, Bool.false_eq_true, if_false] at hf ⊢
    split at hf
    · exact absurd rfl hf
    · next herr => rw [if_neg herr]
  rw [hflush, h1]
  refine ⟨⟨h.vol, h.window, h.dirty, ?_⟩, rfl, ?_⟩
  · intro hclean
    exact absurd (hdirty.symm.trans hclean) (by decide)
  · intro o ho
    unfold fatByte
    simp only
    split
    · rfl
    · rw [hdev _ (by omega) (by omega)]

/-! ## The transfers of a call -/

/-- The transfers of a flush that works. -/
def Drive.flushTransfers (d : Drive) : ℕ :=
  if d.vol.readOnly = false ∧ d.fatCacheDirty = true then d.vol.numberOfFat * d.vol.fatCacheSize
  else 0

/-- Transfer number `n` works, to or from sector `s`. -/
def Drive.TransferWorks (d : Drive) (s n : ℕ) : Prop :=
  s ≤ d.vol.megaSectors ∧ d.ioFault n = none

/-- All transfers of a flush work, if one is due. -/
def Drive.FlushWorks (d : Drive) : Prop :=
  d.vol.readOnly = false → d.fatCacheDirty = true →
    ∀ fat < d.vol.numberOfFat, ∀ i < d.vol.fatCacheSize,
      d.TransferWorks (d.vol.fatStartSector + d.fatCacheStart + i + fat * d.vol.fatSize)
        (d.ioCount + (fat * d.vol.fatCacheSize + i))

theorem mfsWriteDeviceSector_transfer {d d' : Drive} {s pos : ℕ}
    (h : mfsWriteDeviceSector d s pos = (.noError, d')) :
    d.TransferWorks s d.ioCount ∧ d'.ioCount = d.ioCount + 1 := by
  have hd' := mfsWriteDeviceSector_noError h
  unfold mfsWriteDeviceSector at h
  split at h
  · simp at h
  · split at h
    · simp at h
    · split at h
      · next hs hfault =>
        refine ⟨⟨by omega, hfault⟩, ?_⟩
        rw [hd']
      · simp at h

theorem flushFatSectors_transfers (fat n : ℕ) : ∀ {i : ℕ} {d d' : Drive},
    flushFatSectors fat n i d = (.noError, d') → d'.ioCount = d.ioCount + n ∧
      ∀ j < n, d.TransferWorks
        (d.vol.fatStartSector + d.fatCacheStart + (i + j) + fat * d.vol.fatSize) (d.ioCount + j) := by
  induction n with
  | zero =>
    intro i d d' h
    have hd : d = d' := congrArg Prod.snd h
    subst hd
    exact ⟨rfl, fun j hj => absurd hj (Nat.not_lt_zero j)⟩
  | succ n ih =>
    intro i d d' h
    obtain ⟨d₁, h1, h2⟩ := ite_noError (flushFatSectors fat n (i + 1)) h
    obtain ⟨hfirst, hcount⟩ := mfsWriteDeviceSector_transfer h1
    obtain ⟨hcount', hrest⟩ := ih h2
    refine ⟨by omega, fun j hj => ?_⟩
    cases j with
    | zero => exact hfirst
    | succ j =>
      have hd1 := mfsWriteDeviceSector_noError h1
      subst hd1
      obtain ⟨hs, hfault⟩ := hrest j (by omega)
      simp only at hs hfault hcount
      constructor
      · omega
      · rw [← hfault]
        congr 1
        omega

theorem flushFatCopies_transfers (m : ℕ) : ∀ {fat : ℕ} {d d' : Drive},
    flushFatCopies m fat d = (.noError, d') →
      d'.ioCount = d.ioCount + m * d.vol.fatCacheSize ∧
      ∀ j < m, ∀ i < d.vol.fatCacheSize, d.TransferWorks
        (d.vol.fatStartSector + d.fatCacheStart + i + (fat + j) * d.vol.fatSize)
        (d.ioCount + (j * d.vol.fatCacheSize + i)) := by
  induction m with
  | zero =>
    intro fat d d' h
    have hd : d = d' := congrArg Prod.snd h
    subst hd
    refine ⟨?_, fun j hj => absurd hj (Nat.not_lt_zero j)⟩
    rw [Nat.zero_mul, Nat.add_zero]
  | succ m ih =>
    intro fat d d' h
    obtain ⟨d₁, h1, h2⟩ := ite_noError (flushFatCopies m (fat + 1)) h
    obtain ⟨hcount, hfirst⟩ := flushFatSectors_transfers _ _ h1
    obtain ⟨hcount', hrest⟩ := ih h2
    obtain ⟨dev, io, rfl, -⟩ := flushFatSectors_noError _ h1
    simp only at hcount hcount' hrest
    refine ⟨?_, fun j hj i hi => ?_⟩
    · rw [hcount', hcount, Nat.succ_mul]
      omega
    · cases j with
      | zero =>
        rw [Nat.zero_mul, Nat.zero_add, Nat.add_zero]
        have hthis := hfirst i hi
        rwa [Nat.zero_add] at hthis
      | succ j =>
        obtain ⟨hs, hfault⟩ := hrest j (by omega) i hi
        simp only at hs hfault
        have hcopy : fat + (j + 1) = fat + 1 + j := by omega
        rw [hcopy]
        constructor
        · exact hs
        · rw [← hfault, hcount, Nat.succ_mul]
          congr 1
          omega

/-- A flush that works has made its transfers, and all of them worked. -/
theorem mfsFlushFatCache_transfers {d d' : Drive} (hf : mfsFlushFatCache d = (.noError, d')) :
    d.FlushWorks ∧ d'.ioCount = d.ioCount + d.flushTransfers := by
  unfold mfsFlushFatCache at hf
  rw [Drive.flushTransfers]
  split at hf
  · next hro =>
    have hd : d = d' := congrArg Prod.snd hf
    subst hd
    rw [if_neg (by simp [hro])]
    exact ⟨fun hw => absurd (hro.symm.trans hw) (by decide), rfl⟩
  · next hro =>
    split at hf
    · next hdirty =>
      obtain ⟨d₁, h1, h2⟩ := ite_noError
        (fun d₁ => (.noError, { d₁ with fatCacheDirty := false })) hf
      obtain ⟨hcount, htrans⟩ := flushFatCopies_transfers _ h1
      have hd' := (congrArg Prod.snd h2).symm
      simp only at hd'
      rw [if_pos ⟨by simpa using hro, hdirty⟩, hd']
      refine ⟨fun _ _ fat hfat i hi => ?_, hcount⟩
      have hthis := htrans fat hfat i hi
      rwa [Nat.zero_add] at hthis
    · next hdirty =>
      have hd : d = d' := congrArg Prod.snd hf
      subst hd
      rw [if_neg (fun h => hdirty h.2)]
      exact ⟨fun _ hdirty' => absurd hdirty' hdirty, rfl⟩

/-! ## Failed reloads -/

theorem readFatSectors_cache (start n : ℕ) : ∀ (i : ℕ) (d : Drive),
    ∃ cache io, (readFatSectors start n i d).2 = { d with fatCache := cache, ioCount := io } := by
  induction n with
  | zero =>
    intro i d
    exact ⟨d.fatCache, d.ioCount, rfl⟩
  | succ n ih =>
    intro i d
    have hread : ∃ cache io, (mfsReadDeviceSector d (d.vol.fatStartSector + start + i)
        (d.vol.sectorSize * i)).2 = { d with fatCache := cache, ioCount := io } := by
      unfold mfsReadDeviceSector
      split
      · exact ⟨d.fatCache, d.ioCount, rfl⟩
      · split <;> exact ⟨_, _, rfl⟩
    obtain ⟨cache, io, h1⟩ := hread
    unfold readFatSectors
    simp only
    split
    · rw [h1]
      exact ih (i + 1) _
    · exact ⟨cache, io, h1⟩

/-- One of the transfers of a reload that fails has failed. -/
theorem readFatSectors_error (start n : ℕ) : ∀ {i : ℕ} {d : Drive},
    (readFatSectors start n i d).1 ≠ .noError →
      ∃ j < n, ¬d.TransferWorks (d.vol.fatStartSector + start + (i + j)) (d.ioCount + j) := by
  induction n with
  | zero =>
    intro i d h
    exact absurd rfl h
  | succ n ih =>
    intro i d h
    by_cases hworks : d.TransferWorks (d.vol.fatStartSector + start + i) d.ioCount
    · have h1 : mfsReadDeviceSector d (d.vol.fatStartSector + start + i) (d.vol.sectorSize * i) =
          (.noError, { d with
            fatCache := storeBytes d.fatCache (d.vol.sectorSize * i) d.vol.sectorSize
              (d.device (d.vol.fatStartSector + start + i))
            ioCount := d.ioCount + 1 }) := by
        rw [mfsReadDeviceSector, if_neg (not_lt.mpr hworks.1), hworks.2]
      rw [readFatSectors, h1] at h
      simp only [if_true] at h
      obtain ⟨j, hj, hfail⟩ := ih h
      have hsector : i + 1 + j = i + (j + 1) := by omega
      have hnumber : d.ioCount + 1 + j = d.ioCount + (j + 1) := by omega
      refine ⟨j + 1, by omega, fun hw => hfail ?_⟩
      rw [Drive.TransferWorks, hsector]
      simp only
      rw [hnumber]
      exact hw
    · exact ⟨0, by omega, hworks⟩

/-- The first sector of a reload for the entry at `offset`. -/
def reloadStart (v : Volume) (offset : ℕ) : ℕ :=
  min (offset / v.sectorSize) (v.fatSize - v.fatCacheSize)

/-- Reading the entry at `offset` breaks the window: it names sectors, not that of the entry, and
a transfer of the reload fails after the flush, other than by a first sector that is not on the
device. -/
def Drive.ReloadBreaks (d : Drive) (offset : ℕ) : Prop :=
  d.fatCacheStart ≠ 2 ^ 32 - 1 ∧ ¬Covers d offset ∧ d.FlushWorks ∧
    ∃ i < d.vol.fatCacheSize,
      (0 < i ∨ d.vol.fatStartSector + reloadStart d.vol offset ≤ d.vol.megaSectors) ∧
      ¬d.TransferWorks (d.vol.fatStartSector + reloadStart d.vol offset + i)
        (d.ioCount + d.flushTransfers + i)

/-- While the window names no sectors its bytes do not matter. -/
theorem inSync_of_empty {d d' : Drive} (h : d.InSync) (hempty : d.fatCacheStart = 2 ^ 32 - 1)
    {cache : ℕ → Byte} {io : ℕ} (hd' : d' = { d with fatCache := cache, ioCount := io }) :
    d'.InSync ∧ ∀ o, o / d.vol.sectorSize < d.vol.fatSize → fatByte d' o = fatByte d o := by
  have hsize := h.vol.size_lt
  have hpos := h.vol.cache_pos
  subst hd'
  constructor
  · refine ⟨h.vol, h.window, h.dirty, fun _ hin => ?_⟩
    simp only [hempty] at hin
    omega
  · intro o ho
    rw [fatByte, fatByte, if_neg, if_neg]
    · omega
    · simp only
      omega

/-- A read of the table that fails keeps the table and the window, unless it breaks the window. -/
theorem mfsReadFat_error {d : Drive} (h : d.InSync) {offset : ℕ} (hs : ¬d.ReloadBreaks offset)
    (hr : (mfsReadFat d offset).1 ≠ .noError) :
    (mfsReadFat d offset).2.InSync ∧ (mfsReadFat d offset).2.vol = d.vol ∧
      ∀ o, o / d.vol.sectorSize < d.vol.fatSize → fatByte (mfsReadFat d offset).2 o = fatByte d o := by
  have hmoved : mfsReadFat d offset =
      if (mfsFlushFatCache d).1 = .noError then
        readFatWindow (reloadStart d.vol offset) (mfsFlushFatCache d).2
      else mfsFlushFatCache d := by
    unfold mfsReadFat at hr ⊢
    simp only at hr ⊢
    split at hr
    · next hout => rw [if_pos hout, reloadStart]
    · exact absurd rfl hr
  have hcovers : ¬Covers d offset ∨ d.fatCacheStart = 2 ^ 32 - 1 := by
    by_contra hboth
    obtain ⟨hc, hne⟩ := not_or.mp hboth
    apply hr
    rw [mfsReadFat_of_covers h.vol (not_not.mp hc) (h.window.resolve_left hne)]
  rw [hmoved] at hr ⊢
  by_cases hflush : (mfsFlushFatCache d).1 = .noError
  · obtain ⟨d₁, hd₁⟩ : ∃ d₁, mfsFlushFatCache d = (.noError, d₁) := ⟨_, Prod.ext hflush rfl⟩
    obtain ⟨hworks, hcount⟩ := mfsFlushFatCache_transfers hd₁
    obtain ⟨dev, io, heq, hsync, hbytes⟩ := mfsFlushFatCache_noError h hd₁
    rw [hd₁] at hr ⊢
    simp only [if_true] at hr ⊢
    have hvol : d₁.vol = d.vol := by rw [heq]
    have hstart : d₁.fatCacheStart = d.fatCacheStart := by rw [heq]
    obtain ⟨cache, io', hcache⟩ := readFatSectors_cache (reloadStart d.vol offset)
      d₁.vol.fatCacheSize 0 d₁
    have herr : (readFatSectors (reloadStart d.vol offset) d₁.vol.fatCacheSize 0 d₁).1 ≠
        .noError := by
      intro hno
      apply hr
      rw [readFatWindow]
      simp only [hno, if_true]
    rw [readFatWindow]
    simp only [herr, if_false]
    by_cases hempty : d.fatCacheStart = 2 ^ 32 - 1
    · obtain ⟨hsync', hbytes'⟩ := inSync_of_empty hsync (hstart.trans hempty) hcache
      refine ⟨hsync', by rw [hcache]; exact hvol, fun o ho => ?_⟩
      rw [hbytes' o (by rw [hvol]; exact ho), hbytes o ho]
    · -- only the first sector can be at fault, and it is not on the device
      have hbeyond : ¬d.vol.fatStartSector + reloadStart d.vol offset ≤ d.vol.megaSectors := by
        intro hon
        obtain ⟨j, hj, hfail⟩ := readFatSectors_error _ _ herr
        rw [hvol] at hj
        refine hs ⟨hempty, hcovers.resolve_right hempty, hworks, j, hj, Or.inr hon, fun hw => ?_⟩
        apply hfail
        rw [Drive.TransferWorks, hvol, hcount, Nat.zero_add, heq]
        exact hw
      obtain ⟨n, hn⟩ : ∃ n, d.vol.fatCacheSize = n + 1 :=
        ⟨d.vol.fatCacheSize - 1, (Nat.succ_pred_eq_of_pos h.vol.cache_pos).symm⟩
      have hfirst : readFatSectors (reloadStart d.vol offset) d₁.vol.fatCacheSize 0 d₁ =
          (.sectorNotFound, d₁) := by
        have hbeyond' : d₁.vol.fatStartSector + reloadStart d.vol offset + 0 >
            d₁.vol.megaSectors := by
          rw [hvol]
          omega
        rw [hvol, hn, readFatSectors, mfsReadDeviceSector, if_pos hbeyond']
        exact if_neg (fun he => nomatch he)
      rw [hfirst]
      exact ⟨hsync, hvol, hbytes⟩
  · rw [if_neg hflush]
    exact mfsFlushFatCache_error h hflush

/-! ## Calls and the table without a window -/

inductive FatCall where
  | get (fatEntry : ℕ)
  | put (fatEntry : ℕ) (code : BitVec 32)

/-- The error, the cluster number read, and the drive. -/
def FatCall.exec (d : Drive) : FatCall → MfsError × Option (BitVec 32) × Drive
  | get fatEntry =>
    let r := mfsGetClusterFromFat d fatEntry
    (r.1, some r.2.1, r.2.2)
  | put fatEntry code =>
    let r := mfsPutFat d fatEntry code
    (r.1, none, r.2)

/-- The call on the bytes of a table. -/
def FatCall.onTable (t : FatType) (table : ℕ → Byte) : FatCall → Option (BitVec 32) × (ℕ → Byte)
  | get fatEntry =>
    (some (clusterNumber t (fatRead t table (fatOffset t fatEntry) fatEntry)), table)
  | put fatEntry code => (none, fatWrite t table (fatOffset t fatEntry) fatEntry code)

def FatCall.fatEntry : FatCall → ℕ
  | get fatEntry => fatEntry
  | put fatEntry _ => fatEntry

/-- The call gets as far as the window, and breaks it. -/
def FatCall.Breaks (d : Drive) (c : FatCall) : Prop :=
  clusterMinGood ≤ c.fatEntry ∧ c.fatEntry ≤ d.vol.lastCluster ∧
    (d.vol.readOnly = true → ∃ e, c = get e) ∧
    d.ReloadBreaks (fatOffset d.vol.fatType c.fatEntry)

/-- Drive and window stand for the table. -/
structure Mirrors (d : Drive) (table : ℕ → Byte) : Prop where
  sync : d.InSync
  bytes : ∀ o, o / d.vol.sectorSize < d.vol.fatSize → fatByte d o = table o

variable {d d' : Drive} {table : ℕ → Byte}

/-- In its range a call gets as far as the window. -/
theorem FatCall.exec_reads (c : FatCall) (hmin : clusterMinGood ≤ c.fatEntry)
    (hlast : c.fatEntry ≤ d.vol.lastCluster) (hro : d.vol.readOnly = true → ∃ e, c = get e) :
    (c.exec d).1 = (mfsReadFat d (fatOffset d.vol.fatType c.fatEntry)).1 ∧
      ((c.exec d).1 = .noError → (∃ e, c = get e) →
        (c.exec d).2.2 = (mfsReadFat d (fatOffset d.vol.fatType c.fatEntry)).2) ∧
      ((c.exec d).1 ≠ .noError →
        (c.exec d).2.2 = (mfsReadFat d (fatOffset d.vol.fatType c.fatEntry)).2) := by
  cases c with
  | get e =>
    rw [fatEntry] at *
    rw [exec, mfsGetClusterFromFat, if_neg (by omega), if_neg (by omega)]
    simp only
    split
    · next hread => exact ⟨hread.symm, fun _ _ => rfl, fun _ => rfl⟩
    · exact ⟨rfl, fun _ _ => rfl, fun _ => rfl⟩
  | put e code =>
    have hwritable : ¬d.vol.readOnly = true := by
      intro h
      obtain ⟨e', he'⟩ := hro h
      cases he'
    rw [fatEntry] at *
    rw [exec, mfsPutFat, if_neg hwritable, if_neg (by omega), if_neg (by omega)]
    simp only
    split
    · next hread =>
      refine ⟨hread.symm, ?_, fun hne => absurd rfl hne⟩
      rintro _ ⟨e', he'⟩
      cases he'
    · next hread => exact ⟨rfl, fun hno => absurd hno hread, fun _ => rfl⟩

/-- Any other call is refused. -/
theorem FatCall.exec_refused (c : FatCall) (h : ¬(clusterMinGood ≤ c.fatEntry ∧
    c.fatEntry ≤ d.vol.lastCluster ∧ (d.vol.readOnly = true → ∃ e, c = get e))) :
    (c.exec d).1 ≠ .noError ∧ (c.exec d).2.2 = d := by
  cases c with
  | get e =>
    have hout : ¬(clusterMinGood ≤ e ∧ e ≤ d.vol.lastCluster) := fun hin =>
      h ⟨hin.1, hin.2, fun _ => ⟨e, rfl⟩⟩
    rw [exec, mfsGetClusterFromFat]
    split
    · exact ⟨(fun he => nomatch he), rfl⟩
    · rw [if_pos (by omega)]
      exact ⟨(fun he => nomatch he), rfl⟩
  | put e code =>
    rw [fatEntry] at h
    rw [exec, mfsPutFat]
    by_cases hro : d.vol.readOnly = true
    · rw [if_pos hro]
      exact ⟨(fun he => nomatch he), rfl⟩
    · rw [if_neg hro]
      split
      · exact ⟨(fun he => nomatch he), rfl⟩
      · rw [if_pos]
        · exact ⟨(fun he => nomatch he), rfl⟩
        · by_contra hmin
          exact h ⟨by omega, by omega, fun hro' => absurd hro' hro⟩

/-- A call that returns without an error reads and writes the table. -/
theorem Mirrors.noError (m : Mirrors d table) {c : FatCall} {v : Option (BitVec 32)}
    (h : c.exec d = (.noError, v, d')) : v = (c.onTable d.vol.fatType table).1 ∧
      d'.vol = d.vol ∧ Mirrors d' (c.onTable d.vol.fatType table).2 := by
  have hno : (c.exec d).1 = .noError := by rw [h]
  obtain ⟨hmin, hlast, hro⟩ := not_imp_comm.mp c.exec_refused (fun hr => hr.1 hno)
  obtain ⟨hread, hget, -⟩ := c.exec_reads hmin hlast hro
  cases c with
  | get e =>
    have hlast' : e ≤ d.vol.lastCluster := hlast
    have hd' := hget hno ⟨e, rfl⟩
    rw [h] at hd'
    obtain ⟨hvol, hsync, -, -, hbytes⟩ := mfsReadFat_noError m.sync
      (neededEndSector_lt m.sync.vol hlast) (Prod.ext (hread.symm.trans hno) hd'.symm)
    have hcall : mfsGetClusterFromFat d e = (.noError, (mfsGetClusterFromFat d e).2) :=
      Prod.ext hno rfl
    obtain ⟨-, hv⟩ := mfsGetClusterFromFat_noError m.sync hcall
    have hv' : v = some (mfsGetClusterFromFat d e).2.1 :=
      (congrArg (fun r => r.2.1) h).symm
    refine ⟨?_, hvol, hsync, fun o ho => ?_⟩
    · rw [hv', hv, entryCode, FatCall.onTable]
      simp only
      rw [fatRead_congr m.sync.vol hlast' (fun o ho => (m.bytes o ho).symm)]
    · rw [hvol] at ho
      rw [hbytes o ho]
      exact m.bytes o ho
  | put e code =>
    have hcall : mfsPutFat d e code = (.noError, d') :=
      Prod.ext hno (congrArg (fun r => r.2.2) h)
    obtain ⟨-, -, hvol, hsync, -, -, hbytes⟩ := mfsPutFat_noError m.sync hcall
    refine ⟨(congrArg (fun r => r.2.1) h).symm, hvol, hsync, fun o ho => ?_⟩
    rw [hvol] at ho
    rw [hbytes o ho, FatCall.onTable]
    have hshift : ∀ i < d.vol.fatType.entryBytes, fatByte d (fatOffset d.vol.fatType e + i) =
        table (0 + fatOffset d.vol.fatType e + i) := by
      intro i hi
      rw [Nat.zero_add]
      exact m.bytes _ (entry_in_table m.sync.vol hlast hi)
    have hplace : fatByte d o = table (0 + o) := by
      rw [Nat.zero_add]
      exact m.bytes o ho
    rw [fatWrite_shift d.vol.fatType code hshift o hplace, Nat.zero_add, Nat.zero_add]

/-- A call that fails and does not break the window changes nothing. -/
theorem Mirrors.error (m : Mirrors d table) {c : FatCall} (hs : ¬c.Breaks d)
    (h : (c.exec d).1 ≠ .noError) : (c.exec d).2.2.vol = d.vol ∧ Mirrors (c.exec d).2.2 table := by
  by_cases hin : clusterMinGood ≤ c.fatEntry ∧ c.fatEntry ≤ d.vol.lastCluster ∧
      (d.vol.readOnly = true → ∃ e, c = .get e)
  · obtain ⟨hmin, hlast, hro⟩ := hin
    obtain ⟨hread, -, hdrive⟩ := c.exec_reads hmin hlast hro
    obtain ⟨hsync, hvol, hbytes⟩ := mfsReadFat_error m.sync
      (fun hb => hs ⟨hmin, hlast, hro, hb⟩) (hread ▸ h)
    rw [hdrive h]
    refine ⟨hvol, hsync, fun o ho => ?_⟩
    rw [hvol] at ho
    rw [hbytes o ho]
    exact m.bytes o ho
  · rw [(c.exec_refused hin).2]
    exact ⟨rfl, m⟩

/-! ## What a flush writes -/

/-- The window goes to its place in every copy of the table, and nowhere else. -/
theorem flushFatCopies_writes (m : ℕ) :
    ∀ {fat : ℕ} {d d' : Drive}, flushFatCopies m fat d = (.noError, d') →
      ∀ s, ∀ o < d.vol.sectorSize, d'.device s o = d.device s o ∨
        ∃ j < m, ∃ k < d.vol.fatCacheSize,
          s = d.vol.fatStartSector + d.fatCacheStart + (fat + j) * d.vol.fatSize + k ∧
            d'.device s o = d.fatCache (d.vol.sectorSize * k + o) := by
  induction m with
  | zero =>
    intro fat d d' h s o _
    have hd : d = d' := congrArg Prod.snd h
    subst hd
    exact Or.inl rfl
  | succ m ih =>
    intro fat d d' h s o ho
    obtain ⟨d₁, h1, h2⟩ := ite_noError (flushFatCopies m (fat + 1)) h
    obtain ⟨dev, io, rfl, hdev⟩ := flushFatSectors_noError _ h1
    rcases ih h2 s o ho with hsame | ⟨j, hj, k, hk, hs, hbyte⟩
    · rw [hsame]
      simp only
      rw [hdev s o ho]
      split
      · next hin =>
        refine Or.inr ⟨0, Nat.zero_lt_succ m,
          s - (d.vol.fatStartSector + d.fatCacheStart + fat * d.vol.fatSize), by omega, ?_, rfl⟩
        rw [Nat.add_zero]
        omega
      · exact Or.inl rfl
    · refine Or.inr ⟨j + 1, by omega, k, hk, ?_, hbyte⟩
      have hcopy : fat + (j + 1) = fat + 1 + j := by omega
      rw [hs, hcopy]

/-- A flush that works writes bytes of the table to their places in the copies. -/
theorem Mirrors.flush (m : Mirrors d table) (hf : mfsFlushFatCache d = (.noError, d')) :
    (∀ k < d.vol.fatSize, ∀ o < d.vol.sectorSize,
      d'.device (d.vol.fatStartSector + k) o = table (k * d.vol.sectorSize + o)) ∧
    ∀ s, ∀ o < d.vol.sectorSize, d'.device s o = d.device s o ∨
      ∃ fat < d.vol.numberOfFat, ∃ k < d.vol.fatSize,
        s = d.vol.fatStartSector + k + fat * d.vol.fatSize ∧
          d'.device s o = table (k * d.vol.sectorSize + o) := by
  obtain ⟨dev, io, hd', hsync, hbytes⟩ := mfsFlushFatCache_noError m.sync hf
  have hvol : d'.vol = d.vol := by rw [hd']
  have hclean : d'.fatCacheDirty = false := by rw [hd']
  have hplace : ∀ k o, o < d.vol.sectorSize → (k * d.vol.sectorSize + o) / d.vol.sectorSize = k ∧
      (k * d.vol.sectorSize + o) % d.vol.sectorSize = o := by
    intro k o ho
    rw [Nat.mul_comm, Nat.mul_add_div m.sync.vol.sectorSize_pos, Nat.mul_add_mod,
      Nat.div_eq_of_lt ho, Nat.mod_eq_of_lt ho]
    exact ⟨rfl, rfl⟩
  constructor
  · intro k hk o ho
    obtain ⟨hdiv, hmod⟩ := hplace k o ho
    have hread := hsync.fatByte_device hclean (o := k * d.vol.sectorSize + o)
      (by rw [hvol, hdiv]; exact hk)
    rw [hvol, hdiv, hmod] at hread
    rw [← hread, hbytes _ (by rw [hdiv]; exact hk)]
    exact m.bytes _ (by rw [hdiv]; exact hk)
  · intro s o ho
    by_cases hdirty : d.fatCacheDirty = true
    · obtain ⟨hro, hin⟩ := m.sync.dirty hdirty
      unfold mfsFlushFatCache at hf
      simp only [hro, hdirty, if_true, Bool.false_eq_true, if_false] at hf
      obtain ⟨d₁, h1, h2⟩ := ite_noError
        (fun d₁ => (.noError, { d₁ with fatCacheDirty := false })) hf
      have hdevice : d'.device = d₁.device := (congrArg (fun r => r.2.device) h2).symm
      rw [hdevice]
      rcases flushFatCopies_writes _ h1 s o ho with hsame | ⟨j, hj, k, hk, hs, hbyte⟩
      · exact Or.inl hsame
      · refine Or.inr ⟨j, hj, d.fatCacheStart + k, by omega, ?_, ?_⟩
        · rw [hs, Nat.zero_add]
          omega
        · obtain ⟨hdiv, -⟩ := hplace (d.fatCacheStart + k) o ho
          rw [hbyte, ← m.bytes _ (by rw [hdiv]; omega), fatByte, if_pos (by rw [hdiv]; omega)]
          congr 1
          rw [Nat.add_mul, Nat.add_assoc, Nat.add_sub_cancel_left, Nat.mul_comm]
    · have hsame : mfsFlushFatCache d = (.noError, d) := by
        rw [mfsFlushFatCache, if_neg hdirty, ite_self]
      rw [hsame] at hf
      have hd : d = d' := congrArg Prod.snd hf
      rw [← hd]
      exact Or.inl rfl

/-! ## Runs -/

/-- A call that does not break the window; one that returns without an error is also made on the
table. -/
inductive FatStep : Drive × (ℕ → Byte) → Drive × (ℕ → Byte) → Prop
  | done {d d' : Drive} {table : ℕ → Byte} {c : FatCall} {v : Option (BitVec 32)}
      (hs : ¬c.Breaks d) (h : c.exec d = (.noError, v, d')) :
      FatStep (d, table) (d', (c.onTable d.vol.fatType table).2)
  | failed {d : Drive} {table : ℕ → Byte} {c : FatCall} (hs : ¬c.Breaks d)
      (h : (c.exec d).1 ≠ .noError) : FatStep (d, table) ((c.exec d).2.2, table)

theorem Mirrors.step {p q : Drive × (ℕ → Byte)} (m : Mirrors p.1 p.2) (h : FatStep p q) :
    Mirrors q.1 q.2 := by
  cases h with
  | done hs h => exact (m.noError h).2.2
  | failed hs h => exact (m.error hs h).2

theorem Mirrors.run {p q : Drive × (ℕ → Byte)} (m : Mirrors p.1 p.2)
    (h : Relation.ReflTransGen FatStep p q) : Mirrors q.1 q.2 := by
  induction h with
  | refl => exact m
  | tail _ hstep ih => exact ih.step hstep

/-- In every run of reads and writes that do not break the window, transfers failing as they
may, each call that returns without an error reads and writes the table, the window holds the
sectors it names, and a flush writes bytes of the table to their places and no others. -/
theorem fat_cache_errors {d₀ d : Drive} {table : ℕ → Byte} (h : d₀.InSync)
    (hrun : Relation.ReflTransGen FatStep (d₀, fatByte d₀) (d, table)) :
    (∀ (c : FatCall) (v : Option (BitVec 32)) (d' : Drive), c.exec d = (.noError, v, d') →
      v = (c.onTable d.vol.fatType table).1 ∧ ∀ o, o / d.vol.sectorSize < d.vol.fatSize →
        fatByte d' o = (c.onTable d.vol.fatType table).2 o) ∧
    (d.fatCacheStart ≠ 2 ^ 32 - 1 → ∀ k < d.vol.fatCacheSize, ∀ o < d.vol.sectorSize,
      d.fatCache (d.vol.sectorSize * k + o) =
        table ((d.fatCacheStart + k) * d.vol.sectorSize + o)) ∧
    ∀ d', mfsFlushFatCache d = (.noError, d') →
      (∀ k < d.vol.fatSize, ∀ o < d.vol.sectorSize,
        d'.device (d.vol.fatStartSector + k) o = table (k * d.vol.sectorSize + o)) ∧
      ∀ s, ∀ o < d.vol.sectorSize, d'.device s o = d.device s o ∨
        ∃ fat < d.vol.numberOfFat, ∃ k < d.vol.fatSize,
          s = d.vol.fatStartSector + k + fat * d.vol.fatSize ∧
            d'.device s o = table (k * d.vol.sectorSize + o) := by
  have m₀ : Mirrors d₀ (fatByte d₀) := ⟨h, fun _ _ => rfl⟩
  have m : Mirrors d table := m₀.run hrun
  refine ⟨?_, ?_, fun d' hf => m.flush hf⟩
  · intro c v d' hexec
    obtain ⟨hv, hvol, m'⟩ := m.noError hexec
    refine ⟨hv, fun o ho => m'.bytes o ?_⟩
    rw [hvol]
    exact ho
  · intro hne k hk o ho
    have hin := m.sync.window.resolve_left hne
    have hdiv : ((d.fatCacheStart + k) * d.vol.sectorSize + o) / d.vol.sectorSize =
        d.fatCacheStart + k := by
      rw [Nat.mul_comm, Nat.mul_add_div m.sync.vol.sectorSize_pos, Nat.div_eq_of_lt ho, Nat.add_zero]
    rw [← m.bytes _ (by rw [hdiv]; omega), fatByte, if_pos (by rw [hdiv]; omega)]
    congr 1
    rw [Nat.add_mul, Nat.add_assoc, Nat.add_sub_cancel_left, Nat.mul_comm]

/-- A FAT16 drive whose sectors hold their numbers, with the first two sectors of the table in the
window; its second transfer fails. -/
def numberedDrive : Drive :=
  { filledDrive .fat16 32 5000 0 with
    fatCache := fun o => BitVec.ofNat 8 (1 + o / 512)
    device := fun s _ => BitVec.ofNat 8 s
    ioFault := fun n => if n = 1 then some fun _ => 0 else none }

theorem numberedDrive_inSync : numberedDrive.InSync := by
  have hok : (filledDrive .fat16 32 5000 0).vol.Ok :=
    (filledDrive_inSync .fat16 0 (by decide) (by decide) (by decide) (by decide)).vol
  refine ⟨hok, Or.inr (by decide), fun hd => absurd hd (by decide), fun _ _ k _ o ho => ?_⟩
  have ho' : o < 512 := ho
  have hdiv : (512 * k + o) / 512 = k := by omega
  simp only [numberedDrive, filledDrive, hdiv, Nat.add_zero]

/-- The drive as mounting leaves it, with no sectors in the window. -/
def emptyWindow : Drive := { numberedDrive with fatCacheStart := 2 ^ 32 - 1 }

theorem emptyWindow_inSync : emptyWindow.InSync :=
  ⟨numberedDrive_inSync.vol, Or.inl rfl, fun hd => absurd hd (by decide),
    fun _ hin => absurd hin (by decide)⟩

/-- The first read fails half way, the next ones read the table. -/
theorem fat_cache_errors_emptyWindow : ∃ d,
    Relation.ReflTransGen FatStep (emptyWindow, fatByte emptyWindow) (d, fatByte emptyWindow) ∧
    ((FatCall.get 2560).exec emptyWindow).1 = .readFault ∧
    ((FatCall.get 2).exec d).2.1 = ((FatCall.get 2).onTable .fat16 (fatByte emptyWindow)).1 := by
  have hfail : ((FatCall.get 2560).exec emptyWindow).1 = .readFault := by decide
  have hstep : FatStep (emptyWindow, fatByte emptyWindow)
      (((FatCall.get 2560).exec emptyWindow).2.2, fatByte emptyWindow) := by
    apply FatStep.failed
    · rintro ⟨-, -, -, hne, -⟩
      exact hne rfl
    · rw [hfail]
      exact fun he => nomatch he
  have hrun := Relation.ReflTransGen.single hstep
  refine ⟨_, hrun, hfail, ?_⟩
  have hread : ((FatCall.get 2).exec ((FatCall.get 2560).exec emptyWindow).2.2).1 = .noError := by
    decide
  exact ((fat_cache_errors emptyWindow_inSync hrun).1 _ _ _ (Prod.ext hread rfl)).1

/-- With the window on the first two sectors the read of entry 2560 fails and leaves sectors 11 and
zeros in it, and entry 2 then reads as `0x0B0B` where the table has `0x0101`. -/
theorem fat_cache_errors_stale : numberedDrive.InSync ∧
    ((FatCall.get 2560).exec numberedDrive).1 = .readFault ∧
    (((FatCall.get 2560).exec numberedDrive).2.2.fatCacheStart = 0) ∧
    ((FatCall.get 2).exec ((FatCall.get 2560).exec numberedDrive).2.2).1 = .noError ∧
    ((FatCall.get 2).exec ((FatCall.get 2560).exec numberedDrive).2.2).2.1 = some 0x0B0B#32 ∧
    ((FatCall.get 2).onTable .fat16 (fatByte numberedDrive)).1 = some 0x0101#32 :=
  ⟨numberedDrive_inSync, by decide, by decide, by decide, by decide, by decide⟩

end Mqx.Mfs
