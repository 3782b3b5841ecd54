import Mqx.Mfs.File
import Mqx.Mfs.FatAccess

/-!
# The data sector and the device

What the sectors hold for the file functions: the data sector in memory where it is valid,
and the device elsewhere. Loading, filling and flushing the data sector change this view
only where bytes are stored. Transfers past the data sector agree with the view only if
they stay away from the sector it holds.
-/

namespace Mqx.Mfs

variable {s s' : FileState} {n o : ℕ}

/-- What the file functions should see in sector `n`. -/
def FileState.view (s : FileState) (n o : ℕ) : Byte :=
  if n = s.dataSectorNumber then s.dataSector o else s.d.device n o

/-- The sectors of clusters lie behind the table and on the device, and cluster numbers
are no chain ends. -/
structure Geometry (s : FileState) : Prop where
  spc_pos : 0 < s.layout.sectorsPerCluster
  table : s.d.vol.fatEnd ≤ s.layout.dataStartSector
  inDevice : s.layout.dataStartSector + (s.d.vol.lastCluster - 1) * s.layout.sectorsPerCluster ≤
    s.d.vol.megaSectors + 1
  mega_lt : s.d.vol.megaSectors < 2 ^ 32 - 1
  codes : s.d.vol.lastCluster < (clusterMax s.d.vol.fatType).toNat

/-- A sector of some cluster. -/
def FileState.DataSector (s : FileState) (n : ℕ) : Prop :=
  s.layout.dataStartSector ≤ n ∧ n ≤ s.d.vol.megaSectors

/-- The state of the drive between two operations: unless it is dirty, the data sector
holds what the device holds. -/
structure DriveInv (s : FileState) : Prop where
  sync : s.d.InSync
  works : s.d.Works
  geometry : Geometry s
  place : s.dataSectorNumber ≤ s.d.vol.megaSectors →
    s.layout.dataStartSector ≤ s.dataSectorNumber
  dirty : s.dataSectorDirty = true → s.DataSector s.dataSectorNumber
  clean : s.dataSectorDirty = false → s.dataSectorNumber ≤ s.d.vol.megaSectors →
    ∀ o < s.sectorSize, s.d.device s.dataSectorNumber o = s.dataSector o

/-- Only the drive and its data sector differ, and the table is the same. -/
structure OnlyData (s s' : FileState) : Prop where
  eq : s' = { s with
    d := s'.d
    dataSectorNumber := s'.dataSectorNumber
    dataSectorDirty := s'.dataSectorDirty
    dataSector := s'.dataSector }
  vol : s'.d.vol = s.d.vol
  table : SameTable s.d s'.d

theorem OnlyData.refl (s : FileState) : OnlyData s s := ⟨rfl, rfl, SameTable.refl s.d⟩

theorem OnlyData.trans {s₁ s₂ : FileState} (h : OnlyData s s₁) (h' : OnlyData s₁ s₂) :
    OnlyData s s₂ := by
  refine ⟨?_, h'.vol.trans h.vol, h.table.trans h'.table⟩
  rw [h'.eq, h.eq]

namespace OnlyData

variable (h : OnlyData s s')

include h

theorem layout : s'.layout = s.layout := by rw [h.eq]

theorem location : s'.location = s.location := by rw [h.eq]

theorem savedPosition : s'.savedPosition = s.savedPosition := by rw [h.eq]

theorem currentCluster : s'.currentCluster = s.currentCluster := by rw [h.eq]

theorem previousCluster : s'.previousCluster = s.previousCluster := by rw [h.eq]

theorem firstCluster : s'.firstCluster = s.firstCluster := by rw [h.eq]

theorem fileSize : s'.fileSize = s.fileSize := by rw [h.eq]

theorem full : s'.full = s.full := by rw [h.eq]

theorem sectorSize : s'.sectorSize = s.sectorSize := by
  rw [FileState.sectorSize, FileState.sectorSize, h.vol]

theorem clusterSize : s'.clusterSize = s.clusterSize := by
  rw [FileState.clusterSize, FileState.clusterSize, h.layout, h.sectorSize]

theorem clusterToSector (c : ℕ) : s'.clusterToSector c = s.clusterToSector c := by
  rw [FileState.clusterToSector, FileState.clusterToSector, h.layout]

theorem dataSector : s'.DataSector n ↔ s.DataSector n := by
  rw [FileState.DataSector, FileState.DataSector, h.layout, h.vol]

theorem geometry (g : Geometry s) : Geometry s' := by
  constructor
  · rw [h.layout]
    exact g.spc_pos
  · rw [h.vol, h.layout]
    exact g.table
  · rw [h.vol, h.layout]
    exact g.inDevice
  · rw [h.vol]
    exact g.mega_lt
  · rw [h.vol]
    exact g.codes

end OnlyData

/-! ## Flushing -/

theorem mfsWriteDeviceSectors_works {d : Drive} (w : d.Works) (hn : n ≤ d.vol.megaSectors)
    (count : ℕ) (buffer : ℕ → Byte) : mfsWriteDeviceSectors d n count buffer =
      (.noError, { d with
        device := storeSectors d n count buffer
        ioCount := d.ioCount + 1 }) := by
  rw [mfsWriteDeviceSectors, if_neg (by simp [w.writable]), if_neg (by omega), w.noFault]

theorem storeSectors_of_mem {d : Drive} {count : ℕ} {buffer : ℕ → Byte} {m : ℕ} (hle : n ≤ m)
    (hlt : m < n + count) (ho : o < d.vol.sectorSize) :
    storeSectors d n count buffer m o = buffer ((m - n) * d.vol.sectorSize + o) :=
  if_pos ⟨hle, hlt, ho⟩

theorem storeSectors_of_notMem {d : Drive} {count : ℕ} {buffer : ℕ → Byte} {m : ℕ}
    (h : ¬(n ≤ m ∧ m < n + count)) : storeSectors d n count buffer m o = d.device m o :=
  if_neg fun hin => h ⟨hin.1, hin.2.1⟩

/-- Sectors behind the table are written. -/
theorem dataFrame_storeSectors {d : Drive} (hn : d.vol.fatEnd ≤ n) (count io : ℕ)
    (buffer : ℕ → Byte) :
    DataFrame d { d with device := storeSectors d n count buffer, ioCount := io } := by
  refine ⟨rfl, rfl, rfl, rfl, rfl, fun m hm o _ => ?_⟩
  exact storeSectors_of_notMem (by omega)

theorem flush_spec (i : DriveInv s) : ∃ d, s.mfsFlushDataSectorBuffer =
    (.noError, { s with d := d, dataSectorDirty := false }) ∧ DataFrame s.d d ∧
      (∀ o < s.sectorSize, s.dataSectorNumber ≤ s.d.vol.megaSectors →
        d.device s.dataSectorNumber o = s.dataSector o) ∧
      ∀ m, m ≠ s.dataSectorNumber → ∀ o, d.device m o = s.d.device m o := by
  unfold FileState.mfsFlushDataSectorBuffer
  rw [if_neg (by simp [i.works.writable])]
  cases hdirty : s.dataSectorDirty with
  | false =>
    refine ⟨s.d, ?_, ⟨rfl, rfl, rfl, rfl, rfl, fun _ _ _ _ => rfl⟩, ?_, fun _ _ _ => rfl⟩
    · simp only [Bool.false_eq_true, if_false]
      rw [← hdirty]
    · exact fun o ho hmega => i.clean hdirty hmega o ho
  | true =>
    obtain ⟨hlo, hhi⟩ := i.dirty hdirty
    have htable := i.geometry.table
    simp only [if_true]
    rw [mfsWriteDeviceSectors_works i.works hhi, if_pos rfl]
    refine ⟨_, rfl, dataFrame_storeSectors (by omega) 1 _ _, ?_, ?_⟩
    · intro o ho _
      simp only
      rw [storeSectors_of_mem (le_refl _) (by omega) ho, Nat.sub_self, Nat.zero_mul, Nat.zero_add]
    · intro m hm o
      exact storeSectors_of_notMem (by omega)

/-- The view is what the device holds once the data sector is flushed. -/
theorem device_of_flush {d : Drive}
    (hself : ∀ o < s.sectorSize, s.dataSectorNumber ≤ s.d.vol.megaSectors →
      d.device s.dataSectorNumber o = s.dataSector o)
    (hother : ∀ m, m ≠ s.dataSectorNumber → ∀ o, d.device m o = s.d.device m o) {m : ℕ}
    (hm : m ≤ s.d.vol.megaSectors) (ho : o < s.sectorSize) : d.device m o = s.view m o := by
  unfold FileState.view
  split
  · next h =>
    subst h
    exact hself o ho hm
  · next h => exact hother m h o

theorem flush_inv (i : DriveInv s) : ∃ s', s.mfsFlushDataSectorBuffer = (.noError, s') ∧
    OnlyData s s' ∧ DriveInv s' ∧ s'.dataSectorNumber = s.dataSectorNumber ∧
      s'.dataSectorDirty = false ∧
      ∀ m o, o < s.sectorSize → s'.view m o = s.view m o := by
  obtain ⟨d, heq, hframe, hself, hother⟩ := flush_spec i
  have hdata : OnlyData s { s with d := d, dataSectorDirty := false } :=
    ⟨rfl, hframe.vol, hframe.sameTable i.sync⟩
  refine ⟨_, heq, hdata, ?_, rfl, rfl, ?_⟩
  · refine ⟨hframe.inSync i.sync, hframe.works i.works, hdata.geometry i.geometry, ?_, ?_, ?_⟩
    · rw [hframe.vol]
      exact i.place
    · intro h
      exact absurd h Bool.false_ne_true
    · intro _ hmega o ho
      rw [hdata.sectorSize] at ho
      rw [hframe.vol] at hmega
      exact hself o ho hmega
  · intro m o _
    unfold FileState.view
    split
    · rfl
    · next h => exact hother m h o

/-! ## Loading -/

/-- After the data sector is loaded: the device holds the old view everywhere else, and
the data sector does where it was read or was there before. -/
structure Loaded (s : FileState) (n : ℕ) (hwRead : Bool) (s' : FileState) : Prop where
  only : OnlyData s s'
  sync : s'.d.InSync
  works : s'.d.Works
  number : s'.dataSectorNumber = n
  dirty : s'.dataSectorDirty = true → s.dataSectorDirty = true
  clean : hwRead = true → s'.dataSectorDirty = false →
    ∀ o < s.sectorSize, s'.d.device n o = s'.dataSector o
  others : ∀ m ≤ s.d.vol.megaSectors, m ≠ n → ∀ o < s.sectorSize,
    s'.d.device m o = s.view m o
  bytes : hwRead = true ∨ n = s.dataSectorNumber →
    ∀ o < s.sectorSize, s'.dataSector o = s.view n o

theorem mfsReadDeviceSectors_works {d : Drive} (w : d.Works) {count : ℕ}
    (hn : n + count - 1 ≤ d.vol.megaSectors) (buffer : ℕ → Byte) (pos : ℕ) :
    mfsReadDeviceSectors d n count buffer pos =
      (.noError, storeBytes buffer pos (count * d.vol.sectorSize) (fun o =>
        d.device (n + o / d.vol.sectorSize) (o % d.vol.sectorSize)),
        { d with ioCount := d.ioCount + 1 }) := by
  rw [mfsReadDeviceSectors, if_neg (by omega), w.noFault]

theorem load_spec (i : DriveInv s) (hn : s.DataSector n) (hwRead : Bool) :
    ∃ s', s.mfsReadDataSector n hwRead = (.noError, s') ∧ Loaded s n hwRead s' := by
  unfold FileState.mfsReadDataSector
  by_cases hcached : n = s.dataSectorNumber
  · rw [if_neg (not_not.mpr hcached)]
    refine ⟨s, rfl, OnlyData.refl s, i.sync, i.works, hcached.symm, fun h => h, ?_, ?_, ?_⟩
    · intro _ hc o ho
      rw [hcached] at hn ⊢
      exact i.clean hc hn.2 o ho
    · intro m _ hm o _
      rw [FileState.view, if_neg (by rw [← hcached]; exact hm)]
    · intro _ o _
      rw [FileState.view, if_pos hcached]
  · rw [if_pos hcached]
    obtain ⟨d, heq, hframe, hself, hother⟩ := flush_spec i
    have hwork := hframe.works i.works
    have hinv : ({ s with d := d, dataSectorDirty := false } : FileState).mfsInvalidateDataSector =
        { s with d := d, dataSectorNumber := 2 ^ 32 - 1, dataSectorDirty := false } := by
      unfold FileState.mfsInvalidateDataSector
      rw [if_neg (by simp [hwork.writable])]
    simp only [heq, hinv]
    have hss : d.vol.sectorSize = s.sectorSize := by rw [hframe.vol]
    cases hwRead with
    | false =>
      simp only [Bool.false_eq_true, if_false]
      refine ⟨_, rfl, ⟨rfl, hframe.vol, hframe.sameTable i.sync⟩, hframe.inSync i.sync, hwork, rfl,
        fun h => absurd h Bool.false_ne_true, fun h => absurd h Bool.false_ne_true, ?_, ?_⟩
      · intro m hm _ o ho
        exact device_of_flush hself hother hm ho
      · rintro (h | h)
        · exact absurd h Bool.false_ne_true
        · exact absurd h hcached
    | true =>
      have hmega : n + 1 - 1 ≤ d.vol.megaSectors := by
        rw [hframe.vol, Nat.add_sub_cancel]
        exact hn.2
      simp only [if_true]
      rw [mfsReadDeviceSectors_works hwork hmega]
      have hframe' : DataFrame s.d { d with ioCount := d.ioCount + 1 } :=
        ⟨hframe.vol, hframe.noFault, hframe.fatCache, hframe.fatCacheStart, hframe.fatCacheDirty,
          hframe.device⟩
      have hbytes : ∀ o < s.sectorSize, storeBytes s.dataSector 0 (1 * d.vol.sectorSize)
          (fun o => d.device (n + o / d.vol.sectorSize) (o % d.vol.sectorSize)) o =
            d.device n o := by
        intro o ho
        rw [storeBytes, if_pos (by omega), Nat.sub_zero, Nat.div_eq_of_lt (by omega),
          Nat.mod_eq_of_lt (by omega), Nat.add_zero]
      refine ⟨_, rfl, ⟨rfl, hframe.vol, hframe'.sameTable i.sync⟩, hframe'.inSync i.sync,
        hframe'.works i.works, rfl, fun h => absurd h Bool.false_ne_true, ?_, ?_, ?_⟩
      · intro _ _ o ho
        exact (hbytes o ho).symm
      · intro m hm _ o ho
        exact device_of_flush hself hother hm ho
      · intro _ o ho
        simp only
        rw [hbytes o ho]
        exact device_of_flush hself hother hn.2 ho

/-! ## Filling -/

/-- Bytes are stored in sector `n`; the other bytes of the sector are kept if they were
read. -/
structure Stored (s : FileState) (n pos size : ℕ) (src : ℕ → Byte) (hwRead : Bool)
    (s' : FileState) : Prop where
  only : OnlyData s s'
  inv : DriveInv s'
  number : s'.dataSectorNumber = n
  others : ∀ m ≤ s.d.vol.megaSectors, m ≠ n → ∀ o < s.sectorSize, s'.view m o = s.view m o
  inside : ∀ o < s.sectorSize, pos ≤ o → o < pos + size → s'.view n o = src (o - pos)
  outside : hwRead = true ∨ n = s.dataSectorNumber → ∀ o < s.sectorSize,
    ¬(pos ≤ o ∧ o < pos + size) → s'.view n o = s.view n o

theorem store_spec (i : DriveInv s) (hn : s.DataSector n) (hwRead : Bool) (pos size : ℕ)
    (src : ℕ → Byte) : ∃ s₁ s', s.mfsReadDataSector n hwRead = (.noError, s₁) ∧
      s₁.fillDataSector pos size src = (.noError, s') ∧ Stored s n pos size src hwRead s' := by
  obtain ⟨s₁, hload, l⟩ := load_spec i hn hwRead
  obtain ⟨s₂, hs₂⟩ : ∃ s₂, s₂ = { s₁ with
      dataSector := storeBytes s₁.dataSector pos size src
      dataSectorDirty := true } := ⟨_, rfl⟩
  have hstep : OnlyData s₁ s₂ := by
    rw [hs₂]
    exact ⟨rfl, rfl, SameTable.refl _⟩
  have honly : OnlyData s s₂ := l.only.trans hstep
  have hinv : DriveInv s₂ := by
    have hnum : s₂.dataSectorNumber = n := by
      rw [hs₂]
      exact l.number
    refine ⟨?_, ?_, honly.geometry i.geometry, ?_, ?_, ?_⟩
    · rw [hs₂]
      exact l.sync
    · rw [hs₂]
      exact l.works
    · intro _
      rw [hnum]
      exact (honly.dataSector.mpr hn).1
    · intro _
      rw [hnum]
      exact honly.dataSector.mpr hn
    · intro h
      rw [hs₂] at h
      exact absurd h.symm Bool.false_ne_true
  have hst : Stored s n pos size src hwRead s₂ := by
    have hnum : s₂.dataSectorNumber = n := by
      rw [hs₂]
      exact l.number
    refine ⟨honly, hinv, hnum, ?_, ?_, ?_⟩
    · intro m hm hne o ho
      rw [FileState.view, if_neg (by rw [hnum]; exact hne), hs₂]
      exact l.others m hm hne o ho
    · intro o _ hlo hhi
      rw [FileState.view, if_pos hnum.symm, hs₂]
      simp only [storeBytes]
      rw [if_pos ⟨hlo, hhi⟩]
    · intro hkeep o ho hout
      rw [FileState.view, if_pos hnum.symm, hs₂]
      simp only [storeBytes]
      rw [if_neg hout]
      exact l.bytes hkeep o ho
  refine ⟨s₁, ?_⟩
  unfold FileState.fillDataSector
  simp only [← hs₂]
  split
  · obtain ⟨s', hflush, hdata, hinv', hnum, _, hview⟩ := flush_inv hinv
    refine ⟨s', hload, hflush, hst.only.trans hdata, hinv', hnum.trans hst.number, ?_, ?_, ?_⟩
    · intro m hm hne o ho
      rw [hview m o (by rw [honly.sectorSize]; exact ho)]
      exact hst.others m hm hne o ho
    · intro o ho hlo hhi
      rw [hview n o (by rw [honly.sectorSize]; exact ho)]
      exact hst.inside o ho hlo hhi
    · intro hkeep o ho hout
      rw [hview n o (by rw [honly.sectorSize]; exact ho)]
      exact hst.outside hkeep o ho hout
  · exact ⟨s₂, hload, rfl, hst⟩

/-- A sector that was loaded for reading. -/
theorem load_read_spec (i : DriveInv s) (hn : s.DataSector n) :
    ∃ s', s.mfsReadDataSector n true = (.noError, s') ∧ OnlyData s s' ∧ DriveInv s' ∧
      s'.dataSectorNumber = n ∧ (s'.dataSectorDirty = true → s.dataSectorDirty = true) ∧
      (∀ o < s.sectorSize, s'.dataSector o = s.view n o) ∧
      ∀ m ≤ s.d.vol.megaSectors, ∀ o < s.sectorSize, s'.view m o = s.view m o := by
  obtain ⟨s', hload, l⟩ := load_spec i hn true
  refine ⟨s', hload, l.only, ?_, l.number, l.dirty, l.bytes (Or.inl rfl), ?_⟩
  · refine ⟨l.sync, l.works, l.only.geometry i.geometry, ?_, ?_, ?_⟩
    · intro _
      rw [l.number]
      exact (l.only.dataSector.mpr hn).1
    · intro _
      rw [l.number]
      exact l.only.dataSector.mpr hn
    · intro hc _ o ho
      rw [l.only.sectorSize] at ho
      rw [l.number]
      exact l.clean rfl hc o ho
  · intro m hm o ho
    by_cases hmn : m = n
    · rw [hmn, FileState.view, if_pos l.number.symm]
      exact l.bytes (Or.inl rfl) o ho
    · rw [FileState.view, if_neg (by rw [l.number]; exact hmn)]
      exact l.others m hm hmn o ho

/-! ## Transfers past the data sector -/

/-- Sectors are written that the data sector does not hold. -/
theorem direct_write_spec (i : DriveInv s) {count : ℕ} (hlo : s.layout.dataStartSector ≤ n)
    (hhi : n ≤ s.d.vol.megaSectors) (buffer : ℕ → Byte)
    (hapart : ¬(n ≤ s.dataSectorNumber ∧ s.dataSectorNumber < n + count)) :
    ∃ d, mfsWriteDeviceSectors s.d n count buffer = (.noError, d) ∧
      OnlyData s { s with d := d } ∧ DriveInv { s with d := d } ∧
      ∀ m, ∀ o < s.sectorSize, FileState.view { s with d := d } m o =
        if n ≤ m ∧ m < n + count then buffer ((m - n) * s.sectorSize + o) else s.view m o := by
  have htable := i.geometry.table
  rw [mfsWriteDeviceSectors_works i.works hhi]
  have hframe := dataFrame_storeSectors (d := s.d) (n := n) (by omega) count
    (s.d.ioCount + 1) buffer
  have honly : OnlyData s { s with d := { s.d with
      device := storeSectors s.d n count buffer, ioCount := s.d.ioCount + 1 } } :=
    ⟨rfl, rfl, hframe.sameTable i.sync⟩
  refine ⟨_, rfl, honly, ⟨hframe.inSync i.sync, hframe.works i.works,
    honly.geometry i.geometry, i.place, i.dirty, ?_⟩, ?_⟩
  · intro hc hmega o ho
    simp only
    rw [storeSectors_of_notMem hapart]
    exact i.clean hc hmega o ho
  · intro m o ho
    unfold FileState.view
    simp only
    by_cases hm : m = s.dataSectorNumber
    · rw [if_pos hm, if_pos hm, if_neg (by rw [hm]; exact hapart)]
    · rw [if_neg hm, if_neg hm]
      by_cases hin : n ≤ m ∧ m < n + count
      · rw [if_pos hin, storeSectors_of_mem hin.1 hin.2 ho]
      · rw [if_neg hin, storeSectors_of_notMem hin]

/-- Sectors are read that the data sector does not hold, or holds unchanged. -/
theorem direct_read_spec (i : DriveInv s) {count : ℕ} (hcount : 0 < count)
    (hhi : n + count ≤ s.d.vol.megaSectors + 1)
    (hapart : s.dataSectorDirty = true →
      ¬(n ≤ s.dataSectorNumber ∧ s.dataSectorNumber < n + count))
    (buffer : ℕ → Byte) (pos : ℕ) :
    ∃ d buffer', mfsReadDeviceSectors s.d n count buffer pos = (.noError, buffer', d) ∧
      OnlyData s { s with d := d } ∧ DriveInv { s with d := d } ∧
      (∀ m o, FileState.view { s with d := d } m o = s.view m o) ∧
      (∀ k < count * s.sectorSize,
        buffer' (pos + k) = s.view (n + k / s.sectorSize) (k % s.sectorSize)) ∧
      ∀ k < pos, buffer' k = buffer k := by
  rw [mfsReadDeviceSectors_works i.works (by omega)]
  have hframe : DataFrame s.d { s.d with ioCount := s.d.ioCount + 1 } :=
    ⟨rfl, rfl, rfl, rfl, rfl, fun _ _ _ _ => rfl⟩
  have honly : OnlyData s { s with d := { s.d with ioCount := s.d.ioCount + 1 } } :=
    ⟨rfl, rfl, hframe.sameTable i.sync⟩
  refine ⟨_, _, rfl, honly, ⟨hframe.inSync i.sync, hframe.works i.works,
    honly.geometry i.geometry, i.place, i.dirty, i.clean⟩, fun _ _ => rfl, ?_, ?_⟩
  · intro k hk
    have hpos := i.sync.vol.sectorSize_pos
    have hdiv : k / s.sectorSize < count := Nat.div_lt_of_lt_mul (by rwa [Nat.mul_comm])
    have hmod : k % s.sectorSize < s.sectorSize := Nat.mod_lt _ hpos
    have hin : pos ≤ pos + k ∧ pos + k < pos + count * s.sectorSize :=
      ⟨Nat.le_add_right _ _, Nat.add_lt_add_left hk _⟩
    rw [storeBytes, if_pos hin, Nat.add_sub_cancel_left, FileState.view]
    split
    · next hheld =>
      have hle : n ≤ s.dataSectorNumber := by
        rw [← hheld]
        exact Nat.le_add_right _ _
      have hlt : s.dataSectorNumber < n + count := by
        rw [← hheld]
        exact Nat.add_lt_add_left hdiv _
      rw [hheld]
      cases hdirty : s.dataSectorDirty with
      | true => exact absurd ⟨hle, hlt⟩ (hapart hdirty)
      | false => exact i.clean hdirty (by omega) _ hmod
    · rfl
  · intro k hk
    rw [storeBytes, if_neg (by omega)]

end Mqx.Mfs
