import Mqx.Mfs.Fat

/-!
# The table of a drive that works

On a drive without device errors, reading and writing entries always succeeds, and
touches no sector behind the table. The functions above then see the table as a map from
clusters to codes.
-/

namespace Mqx.Mfs

/-- The first sector behind all copies of the table. -/
def Volume.fatEnd (v : Volume) : ℕ := v.fatStartSector + v.numberOfFat * v.fatSize

/-- A drive that can be written and whose transfers all succeed. -/
structure Drive.Works (d : Drive) : Prop where
  writable : d.vol.readOnly = false
  noFault : ∀ n, d.ioFault n = none
  inDevice : d.vol.fatEnd ≤ d.vol.megaSectors + 1

/-- A drive whose table is on the device and whose transfers all succeed. -/
structure Drive.Reads (d : Drive) : Prop where
  noFault : ∀ n, d.ioFault n = none
  inDevice : d.vol.fatEnd ≤ d.vol.megaSectors + 1

theorem Drive.Works.reads {d : Drive} (w : d.Works) : d.Reads := ⟨w.noFault, w.inDevice⟩

/-- Only the window and the sectors of the table differ. -/
structure FatFrame (d d' : Drive) : Prop where
  vol : d'.vol = d.vol
  noFault : d'.ioFault = d.ioFault
  device : ∀ s, d.vol.fatEnd ≤ s → ∀ o < d.vol.sectorSize, d'.device s o = d.device s o

theorem FatFrame.refl (d : Drive) : FatFrame d d := ⟨rfl, rfl, fun _ _ _ _ => rfl⟩

theorem FatFrame.trans {d d₁ d₂ : Drive} (h : FatFrame d d₁) (h' : FatFrame d₁ d₂) :
    FatFrame d d₂ := by
  refine ⟨h'.vol.trans h.vol, h'.noFault.trans h.noFault, fun s hs o ho => ?_⟩
  rw [← h.vol] at hs ho
  rw [h'.device s hs o ho]
  rw [h.vol] at hs ho
  exact h.device s hs o ho

theorem FatFrame.works {d d' : Drive} (h : FatFrame d d') (w : d.Works) : d'.Works := by
  constructor
  · rw [h.vol]
    exact w.writable
  · rw [h.noFault]
    exact w.noFault
  · rw [h.vol]
    exact w.inDevice

theorem FatFrame.reads {d d' : Drive} (h : FatFrame d d') (w : d.Reads) : d'.Reads := by
  constructor
  · rw [h.noFault]
    exact w.noFault
  · rw [h.vol]
    exact w.inDevice

/-! ## Transfers succeed -/

theorem mfsReadDeviceSector_works {d : Drive} (w : d.Reads) {s pos : ℕ}
    (hs : s ≤ d.vol.megaSectors) : (mfsReadDeviceSector d s pos).1 = .noError := by
  rw [mfsReadDeviceSector, if_neg (by omega), w.noFault]

theorem mfsWriteDeviceSector_works {d : Drive} (w : d.Works) {s pos : ℕ}
    (hs : s ≤ d.vol.megaSectors) : (mfsWriteDeviceSector d s pos).1 = .noError := by
  rw [mfsWriteDeviceSector, if_neg (by simp [w.writable]), if_neg (by omega), w.noFault]

/-- The window lies in every copy of the table. -/
theorem copy_le {v : Volume} {fat : ℕ} (hfat : fat < v.numberOfFat) :
    fat * v.fatSize + v.fatSize ≤ v.numberOfFat * v.fatSize := by
  have hmul := Nat.mul_le_mul_right v.fatSize hfat
  rwa [Nat.succ_mul] at hmul

theorem flushFatSectors_works (fat n : ℕ) :
    ∀ {i : ℕ} {d : Drive}, d.Works → fat < d.vol.numberOfFat →
      d.fatCacheStart + (i + n) ≤ d.vol.fatSize →
      ∃ d', flushFatSectors fat n i d = (.noError, d') ∧ FatFrame d d' ∧
        d'.fatCacheStart = d.fatCacheStart := by
  induction n with
  | zero =>
    intro i d _ _ _
    exact ⟨d, rfl, FatFrame.refl d, rfl⟩
  | succ n ih =>
    intro i d w hfat hin
    have hcopy := copy_le hfat
    have hdev := w.inDevice
    rw [Volume.fatEnd] at hdev
    have hs : d.vol.fatStartSector + d.fatCacheStart + i + fat * d.vol.fatSize ≤
        d.vol.megaSectors := by omega
    obtain ⟨d₁, h1⟩ : ∃ d₁, mfsWriteDeviceSector d
        (d.vol.fatStartSector + d.fatCacheStart + i + fat * d.vol.fatSize)
        (d.vol.sectorSize * i) = (.noError, d₁) :=
      ⟨_, Prod.ext (mfsWriteDeviceSector_works w hs) rfl⟩
    have hd1 := mfsWriteDeviceSector_noError h1
    have hframe : FatFrame d d₁ := by
      subst hd1
      refine ⟨rfl, rfl, fun s hs' o _ => ?_⟩
      rw [Volume.fatEnd] at hs'
      simp only
      rw [Function.update_of_ne (by omega)]
    have hstart : d₁.fatCacheStart = d.fatCacheStart := by rw [hd1]
    obtain ⟨d', h2, hframe', hstart'⟩ := ih (i := i + 1) (hframe.works w)
      (by rw [hframe.vol]; exact hfat) (by rw [hframe.vol, hstart]; omega)
    refine ⟨d', ?_, hframe.trans hframe', hstart'.trans hstart⟩
    rw [flushFatSectors, h1]
    exact h2

theorem flushFatCopies_works (m : ℕ) :
    ∀ (fat : ℕ) {d : Drive}, d.Works → fat + m ≤ d.vol.numberOfFat →
      d.fatCacheStart + d.vol.fatCacheSize ≤ d.vol.fatSize →
      ∃ d', flushFatCopies m fat d = (.noError, d') ∧ FatFrame d d' := by
  induction m with
  | zero =>
    intro fat d _ _ _
    exact ⟨d, rfl, FatFrame.refl d⟩
  | succ m ih =>
    intro fat d w hfat hin
    obtain ⟨d₁, h1, hframe, hstart⟩ := flushFatSectors_works fat d.vol.fatCacheSize
      (i := 0) w (by omega) (by omega)
    obtain ⟨d', h2, hframe'⟩ := ih (fat + 1) (hframe.works w)
      (by rw [hframe.vol]; omega) (by rw [hframe.vol, hstart]; exact hin)
    refine ⟨d', ?_, hframe.trans hframe'⟩
    rw [flushFatCopies, h1]
    exact h2

theorem mfsFlushFatCache_works {d : Drive} (h : d.InSync) (w : d.Reads) :
    ∃ d', mfsFlushFatCache d = (.noError, d') ∧ FatFrame d d' := by
  unfold mfsFlushFatCache
  by_cases hro : d.vol.readOnly = true
  · rw [if_pos hro]
    exact ⟨d, rfl, FatFrame.refl d⟩
  · rw [if_neg hro]
    cases hdirty : d.fatCacheDirty with
    | false => exact ⟨d, rfl, FatFrame.refl d⟩
    | true =>
      have w' : d.Works := ⟨by simpa using hro, w.noFault, w.inDevice⟩
      obtain ⟨d₁, h1, hframe⟩ := flushFatCopies_works d.vol.numberOfFat 0 w' (by omega)
        (h.dirty hdirty).2
      refine ⟨{ d₁ with fatCacheDirty := false }, ?_, ⟨hframe.vol, hframe.noFault, hframe.device⟩⟩
      simp only [if_true]
      rw [h1]
      rfl

theorem readFatSectors_works (start n : ℕ) :
    ∀ {i : ℕ} {d : Drive}, d.Reads → start + (i + n) ≤ d.vol.fatSize → 0 < d.vol.numberOfFat →
      ∃ d', readFatSectors start n i d = (.noError, d') ∧ FatFrame d d' := by
  induction n with
  | zero =>
    intro i d _ _ _
    exact ⟨d, rfl, FatFrame.refl d⟩
  | succ n ih =>
    intro i d w hin hcopies
    have hdev := w.inDevice
    have hcopy := copy_le hcopies
    rw [Volume.fatEnd] at hdev
    have hs : d.vol.fatStartSector + start + i ≤ d.vol.megaSectors := by omega
    obtain ⟨d₁, h1⟩ : ∃ d₁, mfsReadDeviceSector d (d.vol.fatStartSector + start + i)
        (d.vol.sectorSize * i) = (.noError, d₁) :=
      ⟨_, Prod.ext (mfsReadDeviceSector_works w hs) rfl⟩
    have hd1 := mfsReadDeviceSector_noError h1
    have hframe : FatFrame d d₁ := by
      subst hd1
      exact ⟨rfl, rfl, fun _ _ _ _ => rfl⟩
    obtain ⟨d', h2, hframe'⟩ := ih (i := i + 1) (hframe.reads w)
      (by rw [hframe.vol]; omega) (by rw [hframe.vol]; exact hcopies)
    refine ⟨d', ?_, hframe.trans hframe'⟩
    rw [readFatSectors, h1]
    exact h2

theorem mfsReadFat_works {d : Drive} (h : d.InSync) (w : d.Reads) (offset : ℕ) :
    ∃ d', mfsReadFat d offset = (.noError, d') ∧ FatFrame d d' := by
  unfold mfsReadFat
  simp only
  split
  · obtain ⟨d₁, h1, hframe⟩ := mfsFlushFatCache_works h w
    rw [h1, if_pos rfl]
    obtain ⟨start, hstart⟩ :
      ∃ start, min (offset / d.vol.sectorSize) (d.vol.fatSize - d.vol.fatCacheSize) = start :=
      ⟨_, rfl⟩
    rw [hstart, readFatWindow]
    simp only
    have hcle := h.vol.cache_le
    obtain ⟨d₂, h2, hframe₂⟩ := readFatSectors_works start d₁.vol.fatCacheSize
      (i := 0) (hframe.reads w) (by rw [hframe.vol]; omega)
      (by rw [hframe.vol]; exact h.vol.copies)
    rw [h2, if_pos rfl]
    have htrans := hframe.trans hframe₂
    exact ⟨_, rfl, ⟨htrans.vol, htrans.noFault, htrans.device⟩⟩
  · exact ⟨d, rfl, FatFrame.refl d⟩

/-! ## The table as a map -/

/-- Entry `e` of the table as it is stored. -/
def rawEntry (d : Drive) (e : ℕ) : BitVec 32 :=
  fatRead d.vol.fatType (fatByte d) (fatOffset d.vol.fatType e) e

/-- The entry keeps every code that is put: no reserved bit is set. -/
def Linkable (d : Drive) (e : ℕ) : Prop :=
  (rawEntry d e).toNat / 2 ^ d.vol.fatType.codeBits = 0

instance (d : Drive) (e : ℕ) : Decidable (Linkable d e) :=
  inferInstanceAs (Decidable ((rawEntry d e).toNat / 2 ^ d.vol.fatType.codeBits = 0))

/-- The same table. -/
structure SameTable (d d' : Drive) : Prop where
  vol : d'.vol = d.vol
  entry : ∀ e ≤ d.vol.lastCluster, rawEntry d' e = rawEntry d e

theorem SameTable.refl (d : Drive) : SameTable d d := ⟨rfl, fun _ _ => rfl⟩

theorem SameTable.trans {d d₁ d₂ : Drive} (h : SameTable d d₁) (h' : SameTable d₁ d₂) :
    SameTable d d₂ := by
  refine ⟨h'.vol.trans h.vol, fun e he => ?_⟩
  rw [h'.entry e (by rw [h.vol]; exact he)]
  exact h.entry e he

theorem SameTable.entryCode {d d' : Drive} (h : SameTable d d') {e : ℕ}
    (he : e ≤ d.vol.lastCluster) : entryCode d' e = entryCode d e := by
  have hraw := h.entry e he
  rw [rawEntry, rawEntry, h.vol] at hraw
  rw [Mfs.entryCode, Mfs.entryCode, h.vol, hraw]

theorem SameTable.linkable {d d' : Drive} (h : SameTable d d') {e : ℕ}
    (he : e ≤ d.vol.lastCluster) : Linkable d' e ↔ Linkable d e := by
  rw [Linkable, Linkable, h.entry e he, h.vol]

theorem rawEntry_congr {d d' : Drive} (h : d.vol.Ok) (hvol : d'.vol = d.vol)
    (hbytes : ∀ o, o / d.vol.sectorSize < d.vol.fatSize → fatByte d' o = fatByte d o) {e : ℕ}
    (he : e ≤ d.vol.lastCluster) : rawEntry d' e = rawEntry d e := by
  rw [rawEntry, rawEntry, hvol, fatRead_congr h he hbytes]

/-- Reading an entry. -/
theorem mfsGetClusterFromFat_works {d : Drive} (h : d.InSync) (w : d.Reads) {e : ℕ}
    (hmin : clusterMinGood ≤ e) (he : e ≤ d.vol.lastCluster) :
    ∃ d', mfsGetClusterFromFat d e = (.noError, entryCode d e, d') ∧ d'.InSync ∧
      FatFrame d d' ∧ SameTable d d' := by
  obtain ⟨d', hread, hframe⟩ := mfsReadFat_works h w (fatOffset d.vol.fatType e)
  obtain ⟨hvol, hsync, _, _, hbytes⟩ := mfsReadFat_noError h (neededEndSector_lt h.vol he) hread
  obtain ⟨v, hget⟩ : ∃ v, mfsGetClusterFromFat d e = (.noError, v, d') := by
    refine ⟨(mfsGetClusterFromFat d e).2.1, Prod.ext ?_ (Prod.ext rfl ?_)⟩ <;>
    · rw [mfsGetClusterFromFat, if_neg (by omega), if_neg (by omega)]
      simp only [hread, if_true]
  have hv := (mfsGetClusterFromFat_noError h hget).2
  rw [hv] at hget
  refine ⟨d', hget, hsync, hframe, hvol, fun e' he' => ?_⟩
  exact rawEntry_congr h.vol hvol hbytes he'

/-- An entry is changed by a write, and no other. -/
structure EntryPut (d : Drive) (e : ℕ) (code : BitVec 32) (d' : Drive) : Prop where
  vol : d'.vol = d.vol
  others : ∀ e' ≤ d.vol.lastCluster, e' ≠ e → rawEntry d' e' = rawEntry d e'
  code : code = clusterEof ∨ code < clusterMax d.vol.fatType ∧ Linkable d e →
    entryCode d' e = code
  linkable : Linkable d' e ↔ Linkable d e

/-- A write sets the code bits of its entry, keeps the bits above them, and no other entry
changes. -/
theorem mfsPutFat_raw {d d' : Drive} (h : d.InSync) {e : ℕ} {code : BitVec 32}
    (hp : mfsPutFat d e code = (.noError, d')) :
    (rawEntry d' e).toNat % 2 ^ d.vol.fatType.codeBits =
        code.toNat % 2 ^ d.vol.fatType.codeBits ∧
      (rawEntry d' e).toNat / 2 ^ d.vol.fatType.codeBits =
        (rawEntry d e).toNat / 2 ^ d.vol.fatType.codeBits ∧
      ∀ e' ≤ d.vol.lastCluster, e' ≠ e → rawEntry d' e' = rawEntry d e' := by
  obtain ⟨_, he, hvol, _, _, _, hbytes⟩ := mfsPutFat_noError h hp
  have hlast := h.vol.last_le
  have hraw : rawEntry d' e = fatRead d.vol.fatType
      (fatWrite d.vol.fatType (fatByte d) (fatOffset d.vol.fatType e) e code)
      (fatOffset d.vol.fatType e) e := by
    rw [rawEntry, hvol, fatRead_congr h.vol he hbytes]
  rw [hraw]
  refine ⟨fatRead_fatWrite_mod d.vol.fatType (fatByte d) (he.trans hlast) code,
    fatRead_fatWrite_div d.vol.fatType (fatByte d) (he.trans hlast) code, ?_⟩
  intro e' he' hne
  rw [rawEntry, rawEntry, hvol, fatRead_congr h.vol he' hbytes]
  exact fatRead_fatWrite_ne d.vol.fatType (fatByte d) (he.trans hlast) (he'.trans hlast) hne code

theorem mfsPutFat_works {d : Drive} (h : d.InSync) (w : d.Works) {e : ℕ}
    (hmin : clusterMinGood ≤ e) (he : e ≤ d.vol.lastCluster) (code : BitVec 32) :
    ∃ d', mfsPutFat d e code = (.noError, d') ∧ d'.InSync ∧ FatFrame d d' ∧
      EntryPut d e code d' := by
  obtain ⟨d₁, hread, hframe⟩ := mfsReadFat_works h w.reads (fatOffset d.vol.fatType e)
  obtain ⟨d', hput⟩ : ∃ d', mfsPutFat d e code = (.noError, d') := by
    refine ⟨(mfsPutFat d e code).2, Prod.ext ?_ rfl⟩
    rw [mfsPutFat, if_neg (by simp [w.writable]), if_neg (by omega), if_neg (by omega)]
    simp only [hread, if_true]
  have hshape : ∃ free, d' = { d₁ with
      fatCacheDirty := true
      fatCache := fatWrite d₁.vol.fatType d₁.fatCache
        (fatOffset d.vol.fatType e - d₁.fatCacheStart * d₁.vol.sectorSize) e code
      freeCount := free } := by
    obtain ⟨free, hfree⟩ := putFatEntry_eq d₁
      (fatOffset d.vol.fatType e - d₁.fatCacheStart * d₁.vol.sectorSize) e code
    refine ⟨free, ?_⟩
    rw [mfsPutFat, if_neg (by simp [w.writable]), if_neg (by omega), if_neg (by omega)] at hput
    simp only [hread, if_true] at hput
    rw [← hfree]
    exact (congrArg Prod.snd hput).symm
  obtain ⟨free, hd'⟩ := hshape
  have hframe' : FatFrame d d' := by
    subst hd'
    exact ⟨hframe.vol, hframe.noFault, hframe.device⟩
  obtain ⟨_, _, hvol, hsync, _, _, _⟩ := mfsPutFat_noError h hput
  obtain ⟨hmod, hdiv, hothers⟩ := mfsPutFat_raw h hput
  refine ⟨d', hput, hsync, hframe', hvol, hothers, ?_, ?_⟩
  · intro hcode
    have heq := (clusterNumber_eq_iff d.vol.fatType hmod hdiv).mpr hcode
    rw [rawEntry, hvol] at heq
    rw [entryCode, hvol]
    exact heq
  · rw [Linkable, Linkable, hvol, hdiv]

/-! ## Other sectors -/

/-- Nothing of the table is touched. -/
structure DataFrame (d d' : Drive) : Prop where
  vol : d'.vol = d.vol
  noFault : d'.ioFault = d.ioFault
  fatCache : d'.fatCache = d.fatCache
  fatCacheStart : d'.fatCacheStart = d.fatCacheStart
  fatCacheDirty : d'.fatCacheDirty = d.fatCacheDirty
  device : ∀ s < d.vol.fatEnd, ∀ o < d.vol.sectorSize, d'.device s o = d.device s o

namespace DataFrame

variable {d d' : Drive} (h : DataFrame d d')

include h

theorem works (w : d.Works) : d'.Works := by
  constructor
  · rw [h.vol]
    exact w.writable
  · rw [h.noFault]
    exact w.noFault
  · rw [h.vol]
    exact w.inDevice

theorem device_table (hok : d.vol.Ok) {k o : ℕ} (hk : k < d.vol.fatSize)
    (ho : o < d.vol.sectorSize) :
    d'.device (d.vol.fatStartSector + k) o = d.device (d.vol.fatStartSector + k) o := by
  apply h.device _ _ o ho
  have hcopy := copy_le (v := d.vol) hok.copies
  rw [Volume.fatEnd]
  omega

theorem inSync (i : d.InSync) : d'.InSync := by
  constructor
  · rw [h.vol]
    exact i.vol
  · rw [h.vol, h.fatCacheStart]
    exact i.window
  · rw [h.vol, h.fatCacheStart, h.fatCacheDirty]
    exact i.dirty
  · rw [h.vol, h.fatCacheStart, h.fatCacheDirty, h.fatCache]
    intro hc hin k hk o ho
    rw [Nat.add_assoc, h.device_table i.vol (by omega) ho, ← Nat.add_assoc]
    exact i.clean hc hin k hk o ho

theorem sameTable (i : d.InSync) : SameTable d d' := by
  refine ⟨h.vol, fun e he => rawEntry_congr i.vol h.vol ?_ he⟩
  intro o ho
  rw [fatByte, fatByte, h.vol, h.fatCacheStart, h.fatCache,
    h.device_table i.vol ho (Nat.mod_lt _ i.vol.sectorSize_pos)]

end DataFrame

end Mqx.Mfs
