import Mqx.Mfs.FileRead
import Mqx.Mfs.FreeClusters

/-!
# Errors of a read

A read is complete if every call that the transfer depends on succeeds. The error of the transfer
is lost when the drive is unlocked, and a data sector that cannot be written out is dropped.
-/

namespace Mqx.Mfs

/-! ## Behind the table -/

/-- A dirty window lies in the table. -/
def Drive.WindowIn (d : Drive) : Prop :=
  d.fatCacheDirty = true → d.fatCacheStart + d.vol.fatCacheSize ≤ d.vol.fatSize

/-- Sectors behind the table are the same. -/
structure Behind (d d' : Drive) : Prop where
  vol : d'.vol = d.vol
  window : d.WindowIn → d'.WindowIn
  device : d.WindowIn → ∀ n, d.vol.fatEnd ≤ n → d'.device n = d.device n

theorem Behind.refl (d : Drive) : Behind d d := ⟨rfl, fun h => h, fun _ _ _ => rfl⟩

/-- Of the copies from `fat` on nothing behind the table is written. -/
theorem flushFatCopies_behind (m : ℕ) : ∀ (fat : ℕ) (d : Drive),
    fat + m ≤ d.vol.numberOfFat → d.fatCacheStart + d.vol.fatCacheSize ≤ d.vol.fatSize →
      ∀ n, d.vol.fatEnd ≤ n → (flushFatCopies m fat d).2.device n = d.device n := by
  induction m with
  | zero => exact fun _ _ _ _ _ _ => rfl
  | succ m ih =>
    intro fat d hfat hin n hn
    obtain ⟨dev, io, h, hdev⟩ := flushFatSectors_device fat d.vol.fatCacheSize 0 d
    have hcopy := @copy_le d.vol fat (by omega)
    have hsame : dev n = d.device n := by
      apply hdev
      rw [Volume.fatEnd] at hn
      omega
    unfold flushFatCopies
    simp only
    split
    · rw [h]
      have hrest := ih (fat + 1) { d with device := dev, ioCount := io } (by simp only; omega) hin n hn
      exact hrest.trans hsame
    · rw [h]
      exact hsame

theorem mfsFlushFatCache_behind (d : Drive) : Behind d (mfsFlushFatCache d).2 := by
  obtain ⟨dev, io, hframe, -⟩ := flushFatCopies_device d.vol.numberOfFat 0 d
  have hcopies := fun hin => flushFatCopies_behind d.vol.numberOfFat 0 d (by omega) hin
  unfold mfsFlushFatCache
  split
  · exact Behind.refl d
  · split
    · next hdirty =>
      simp only
      split
      · exact ⟨by rw [hframe], fun _ hd => absurd hd (by simp), fun h => hcopies (h hdirty)⟩
      · refine ⟨by rw [hframe], fun h hd => ?_, fun h => hcopies (h hdirty)⟩
        rw [hframe]
        exact h hdirty
    · exact Behind.refl d

theorem mfsReadFat_behind (d : Drive) (offset : ℕ) : Behind d (mfsReadFat d offset).2 := by
  have hflush := mfsFlushFatCache_behind d
  unfold mfsReadFat
  simp only
  split
  · split
    · obtain ⟨cache, io, h⟩ := readFatSectors_cache
        (min (offset / d.vol.sectorSize) (d.vol.fatSize - d.vol.fatCacheSize))
        (mfsFlushFatCache d).2.vol.fatCacheSize 0 (mfsFlushFatCache d).2
      unfold readFatWindow
      simp only
      split
      · rw [h]
        exact ⟨hflush.vol, fun _ hd => absurd hd (by simp), hflush.device⟩
      · rw [h]
        exact ⟨hflush.vol, hflush.window, hflush.device⟩
    · exact hflush
  · exact Behind.refl d

theorem mfsGetClusterFromFat_behind (d : Drive) (e : ℕ) :
    Behind d (mfsGetClusterFromFat d e).2.2 := by
  have hread := mfsReadFat_behind d (fatOffset d.vol.fatType e)
  unfold mfsGetClusterFromFat
  split
  · exact Behind.refl d
  · split
    · exact Behind.refl d
    · simp only
      split
      · exact hread
      · exact hread

/-! ## The data sector in a read -/

/-- Writing out the data sector, if it is dirty, puts its bytes on the device. -/
def FlushSaves (s : FileState) : Prop := s.dataSectorDirty = true →
  ∀ o < s.sectorSize, s.mfsFlushDataSectorBuffer.2.d.device s.dataSectorNumber o = s.dataSector o

/-- A read that began in `s₀` has come to `s`: a data sector that is still dirty is the one of
`s₀`. -/
structure Reading (s₀ s : FileState) : Prop where
  vol : s.d.vol = s₀.d.vol
  layout : s.layout = s₀.layout
  window : s.d.WindowIn
  dirty : s.dataSectorDirty = true → s₀.dataSectorDirty = true ∧
    s.dataSectorNumber = s₀.dataSectorNumber ∧
    ∀ o < s₀.sectorSize, s.dataSector o = s₀.dataSector o

/-- What a drive says about its buffers: dirty sectors lie behind the table, on a drive that can
be written. -/
structure Placed (s : FileState) : Prop where
  window : s.d.WindowIn
  writable : s.dataSectorDirty = true → s.d.vol.readOnly = false
  behind : s.dataSectorDirty = true → s.d.vol.fatEnd ≤ s.dataSectorNumber

variable {s₀ s s' : FileState} {n : ℕ}

theorem Reading.refl (p : Placed s) : Reading s s :=
  ⟨rfl, rfl, p.window, fun h => ⟨h, rfl, fun _ _ => rfl⟩⟩

/-- If the data sector is dirty it is kept. -/
theorem Reading.kept (h : Reading s₀ s) (hdirty : s.dataSectorDirty = true) : DataKept s₀ s :=
  fun _ => Or.inl ⟨hdirty, (h.dirty hdirty).2⟩

/-- Otherwise it is kept if the device has it. -/
theorem dataKept_clean (hdirty : s.dataSectorDirty = false) : DataKept s₀ s ↔
    (s₀.dataSectorDirty = true → ∀ o < s₀.sectorSize,
      s.d.device s₀.dataSectorNumber o = s₀.dataSector o) := by
  refine imp_congr_right fun _ => ⟨fun h => h.resolve_left fun hd => ?_, Or.inr⟩
  rw [hdirty] at hd
  exact absurd hd.1 Bool.false_ne_true

/-- Sectors behind the table and the data sector are the same. -/
theorem Reading.same (h : Reading s₀ s) (p : Placed s₀) (hb : Behind s.d s'.d)
    (hlayout : s'.layout = s.layout) (hdirty : s'.dataSectorDirty = s.dataSectorDirty)
    (hnumber : s'.dataSectorNumber = s.dataSectorNumber) (hdata : s'.dataSector = s.dataSector) :
    Reading s₀ s' ∧ (DataKept s₀ s' ↔ DataKept s₀ s) := by
  refine ⟨⟨hb.vol.trans h.vol, hlayout.trans h.layout, hb.window h.window, ?_⟩, ?_⟩
  · rw [hdirty, hnumber, hdata]
    exact h.dirty
  · refine forall_congr' fun hd => ?_
    rw [hdirty, hnumber, hdata, hb.device h.window]
    rw [h.vol]
    exact p.behind hd

/-! ## Calls that work -/

namespace Transfer

variable (x : Transfer)

/-- The sector is in the buffer, or the data sector there is written out and the sector is read. -/
def LoadWorks : Prop := x.sectorNumber ≠ x.s.dataSectorNumber →
  FlushSaves x.s ∧ (x.s.mfsReadDataSector x.sectorNumber true).1 = .noError

/-- The next sector is found. -/
def StepWorks : Prop := (x.s.mfsNextDataSector x.sectorIndex x.sectorNumber).1 = .noError

/-- The partial sector at the front is read, and the next one is found if it is needed. -/
def HeadWorks (numBytes : ℕ) (buffer : ℕ → Byte) : Prop :=
  x.sectorOffset ≠ 0 →
    let size := min numBytes (x.s.sectorSize - x.sectorOffset)
    x.LoadWorks ∧ (x.sectorOffset + size ≥ x.s.sectorSize → size < numBytes →
      (x.fetch x.sectorOffset size buffer).1.StepWorks)

/-- Each of `n` sectors is read through the buffer, and the next one is found if it is needed. -/
def CopiedWorks (numBytes : ℕ) : ℕ → Transfer → (ℕ → Byte) → Prop
  | 0, _, _ => True
  | n + 1, x, buffer =>
    let y := x.fetch 0 x.s.sectorSize buffer
    x.LoadWorks ∧ (y.1.count < numBytes → y.1.StepWorks) ∧
      CopiedWorks numBytes n (y.1.next (decide (y.1.count < numBytes))) y.2

/-- Each request is answered and the next sector is found if it is needed; or, as a request outside
of the device leaves the number of sectors read before, that number is large enough. -/
def DirectWorks (done : ℕ → ℕ) (numBytes : ℕ) : ℕ → ℕ → ℕ → Transfer → (ℕ → Byte) → Prop
  | 0, _, _, _, _ => True
  | n + 1, wholeSectors, processed, x, buffer => wholeSectors > 0 →
    let count := x.contSectors wholeSectors
    let r := mfsReadDeviceSectors x.s.d x.sectorNumber count buffer x.count
    let t := x.readSectors done numBytes count processed buffer
    if r.1 = .noError then
      ((x.received count r).count < numBytes → (x.received count r).StepWorks) ∧
        DirectWorks done numBytes n (wholeSectors - t.1) t.1 t.2.1 t.2.2
    else numBytes ≤ t.2.1.count

def WholeWorks (done : ℕ → ℕ) (numBytes address processed : ℕ) (buffer : ℕ → Byte) : Prop :=
  let wholeSectors := (numBytes - x.count) / x.s.sectorSize
  if x.Aligned address then DirectWorks done numBytes wholeSectors wholeSectors processed x buffer
  else CopiedWorks numBytes wholeSectors x buffer

/-- The calls of a transfer work. -/
def ReadWorks (done : ℕ → ℕ) (numBytes address processed : ℕ) (buffer : ℕ → Byte) : Prop :=
  let h := x.readHead numBytes buffer
  let w := h.1.readWhole done numBytes address processed h.2
  x.HeadWorks numBytes buffer ∧ h.1.WholeWorks done numBytes address processed h.2 ∧
    (w.1.count < numBytes → w.1.LoadWorks)

end Transfer

/-! ## Calls -/

theorem mfsWriteDeviceSectors_frame (d : Drive) (n count : ℕ) (buffer : ℕ → Byte) : ∃ dev io,
    (mfsWriteDeviceSectors d n count buffer).2 = { d with device := dev, ioCount := io } := by
  unfold mfsWriteDeviceSectors
  split
  · exact ⟨d.device, d.ioCount, rfl⟩
  · split
    · exact ⟨d.device, d.ioCount, rfl⟩
    · split <;> exact ⟨_, _, rfl⟩

theorem mfsReadDeviceSectors_frame (d : Drive) (n count : ℕ) (buffer : ℕ → Byte) (pos : ℕ) :
    ∃ io, (mfsReadDeviceSectors d n count buffer pos).2.2 = { d with ioCount := io } := by
  unfold mfsReadDeviceSectors
  split
  · exact ⟨d.ioCount, rfl⟩
  · split <;> exact ⟨_, rfl⟩

theorem mfsFlushDataSectorBuffer_frame (s : FileState) : ∃ dev io dirty,
    s.mfsFlushDataSectorBuffer.2 = { s with
      d := { s.d with device := dev, ioCount := io }
      dataSectorDirty := dirty } := by
  obtain ⟨dev, io, h⟩ := mfsWriteDeviceSectors_frame s.d s.dataSectorNumber 1 s.dataSector
  unfold FileState.mfsFlushDataSectorBuffer
  split
  · exact ⟨s.d.device, s.d.ioCount, s.dataSectorDirty, rfl⟩
  · split
    · simp only
      split
      · rw [h]
        exact ⟨dev, io, false, rfl⟩
      · rw [h]
        exact ⟨dev, io, s.dataSectorDirty, rfl⟩
    · exact ⟨s.d.device, s.d.ioCount, s.dataSectorDirty, rfl⟩

theorem flush_clean (h : s.dataSectorDirty = false) : s.mfsFlushDataSectorBuffer = (.noError, s) := by
  unfold FileState.mfsFlushDataSectorBuffer
  split
  · rfl
  · rw [if_neg (by rw [h]; exact Bool.false_ne_true)]

/-- Another sector takes the place of the data sector, whatever became of that. -/
theorem load_frame (hn : n ≠ s.dataSectorNumber)
    (hwrite : s.dataSectorDirty = true → s.d.vol.readOnly = false) : ∃ io number data,
    (s.mfsReadDataSector n true).2 = { s with
      d := { s.mfsFlushDataSectorBuffer.2.d with ioCount := io }
      dataSectorNumber := number
      dataSectorDirty := false
      dataSector := data } := by
  obtain ⟨dev, io, dirty, hflush⟩ := mfsFlushDataSectorBuffer_frame s
  obtain ⟨number, hinv⟩ : ∃ number, s.mfsFlushDataSectorBuffer.2.mfsInvalidateDataSector = { s with
      d := s.mfsFlushDataSectorBuffer.2.d
      dataSectorNumber := number
      dataSectorDirty := false } := by
    unfold FileState.mfsInvalidateDataSector
    split
    · next hro =>
      rw [hflush] at hro
      have hclean : s.dataSectorDirty = false := by
        cases hd : s.dataSectorDirty with
        | false => rfl
        | true =>
          have hwr := hwrite hd
          rw [hro] at hwr
          exact hwr
      rw [flush_clean hclean]
      refine ⟨s.dataSectorNumber, ?_⟩
      rw [← hclean]
    · rw [hflush]
      exact ⟨_, rfl⟩
  unfold FileState.mfsReadDataSector
  rw [if_pos hn]
  simp only [if_true, hinv]
  obtain ⟨io', hread⟩ := mfsReadDeviceSectors_frame s.mfsFlushDataSectorBuffer.2.d n 1 s.dataSector 0
  split
  · rw [hread]
    exact ⟨io', _, _, rfl⟩
  · rw [hread]
    exact ⟨io', _, _, rfl⟩

/-- Loading a sector keeps the data sector if that can be written out. -/
theorem Reading.load (h : Reading s₀ s) (p : Placed s₀) (n : ℕ) :
    Reading s₀ (s.mfsReadDataSector n true).2 ∧
      (DataKept s₀ (s.mfsReadDataSector n true).2 ↔
        DataKept s₀ s ∧ (n ≠ s.dataSectorNumber → FlushSaves s)) := by
  by_cases hn : n = s.dataSectorNumber
  · have hsame : (s.mfsReadDataSector n true).2 = s := by
      unfold FileState.mfsReadDataSector
      rw [if_neg (not_not.mpr hn)]
    rw [hsame]
    exact ⟨h, fun hk => ⟨hk, fun hne => absurd hn hne⟩, fun hk => hk.1⟩
  have hwrite : s.dataSectorDirty = true → s.d.vol.readOnly = false := by
    intro hd
    rw [h.vol]
    exact p.writable (h.dirty hd).1
  obtain ⟨io, number, data, hload⟩ := load_frame hn hwrite
  obtain ⟨dev, io', dirty, hflush⟩ := mfsFlushDataSectorBuffer_frame s
  have hd : s.mfsFlushDataSectorBuffer.2.d = { s.d with device := dev, ioCount := io' } := by
    rw [hflush]
  rw [hload, hd]
  refine ⟨⟨h.vol, h.layout, h.window, fun hd => absurd hd Bool.false_ne_true⟩, ?_⟩
  rw [dataKept_clean rfl]
  simp only
  cases hdirty : s.dataSectorDirty with
  | false =>
    have hdev : dev = s.d.device := by
      rw [flush_clean hdirty] at hd
      exact (congrArg Drive.device hd).symm
    rw [hdev, dataKept_clean hdirty]
    exact ⟨fun hk => ⟨hk, fun _ hd' => by rw [hdirty] at hd'; exact absurd hd' Bool.false_ne_true⟩,
      fun hk => hk.1⟩
  | true =>
    obtain ⟨h₀, hnumber, hdata⟩ := h.dirty hdirty
    have hss : s.sectorSize = s₀.sectorSize := by
      rw [FileState.sectorSize, FileState.sectorSize, h.vol]
    rw [FlushSaves, hd, hnumber, hss]
    constructor
    · intro hk
      refine ⟨h.kept hdirty, fun _ _ o ho => ?_⟩
      rw [hdata o ho]
      exact hk h₀ o ho
    · rintro ⟨-, hk⟩ - o ho
      rw [← hdata o ho]
      exact hk (by rw [← hnumber]; exact hn) hdirty o ho

/-- The next sector leaves the data sector. -/
theorem Reading.next (h : Reading s₀ s) (p : Placed s₀) (index number : ℕ) :
    Reading s₀ (s.mfsNextDataSector index number).2.2.2 ∧
      (DataKept s₀ (s.mfsNextDataSector index number).2.2.2 ↔ DataKept s₀ s) := by
  have hb := mfsGetClusterFromFat_behind s.d s.currentCluster
  unfold FileState.mfsNextDataSector
  simp only
  split
  · split
    · split
      · split
        · exact h.same p hb rfl rfl rfl rfl
        · exact h.same p hb rfl rfl rfl rfl
      · exact h.same p hb rfl rfl rfl rfl
    · exact ⟨h, Iff.rfl⟩
  · exact ⟨h, Iff.rfl⟩

/-! ## Parts of a transfer -/

namespace Transfer

variable {x : Transfer} {numBytes : ℕ}

theorem fetch_stage (h : Reading s₀ x.s) (p : Placed s₀) (pos size : ℕ) (buffer : ℕ → Byte) :
    Reading s₀ (x.fetch pos size buffer).1.s ∧
      (DataKept s₀ (x.fetch pos size buffer).1.s ∧ (x.fetch pos size buffer).1.error = .noError ↔
        DataKept s₀ x.s ∧ x.LoadWorks) ∧
      (x.fetch pos size buffer).1.sectorIndex = x.sectorIndex ∧
      (x.fetch pos size buffer).1.count =
        if (x.fetch pos size buffer).1.error = .noError then x.count + size else x.count := by
  obtain ⟨hreading, hkept⟩ := h.load p x.sectorNumber
  have hworks : DataKept s₀ (x.s.mfsReadDataSector x.sectorNumber true).2 ∧
      (x.s.mfsReadDataSector x.sectorNumber true).1 = .noError ↔ DataKept s₀ x.s ∧ x.LoadWorks := by
    rw [hkept, LoadWorks, and_assoc]
    refine and_congr_right fun _ => ?_
    by_cases hn : x.sectorNumber = x.s.dataSectorNumber
    · have hcached : (x.s.mfsReadDataSector x.sectorNumber true).1 = .noError := by
        unfold FileState.mfsReadDataSector
        rw [if_neg (not_not.mpr hn)]
      exact iff_of_true ⟨fun hne => absurd hn hne, hcached⟩ fun hne => absurd hn hne
    · exact ⟨fun hh _ => ⟨hh.1 hn, hh.2⟩, fun hh => ⟨fun hne => (hh hne).1, (hh hn).2⟩⟩
  unfold fetch
  simp only
  split
  · exact ⟨hreading, hworks, rfl, rfl⟩
  · next herr =>
    rw [not_not] at herr
    rw [herr] at hworks
    exact ⟨hreading, hworks, rfl, rfl⟩

theorem nextDataSector_index (hpos : 0 < s.layout.sectorsPerCluster) {index number : ℕ}
    (h : (s.mfsNextDataSector index number).1 = .noError) :
    (s.mfsNextDataSector index number).2.1 < s.layout.sectorsPerCluster := by
  unfold FileState.mfsNextDataSector at h ⊢
  simp only at h ⊢
  split
  · next hcluster =>
    rw [if_pos hcluster] at h
    split
    · next hlast =>
      rw [if_pos hlast] at h
      split
      · split <;> exact hpos
      · next herr =>
        rw [if_neg herr] at h
        exact absurd h herr
    · next hlast => exact not_le.mp hlast
  · next hcluster =>
    rw [if_neg hcluster] at h
    cases h

theorem next_stage (h : Reading s₀ x.s) (p : Placed s₀) (hpos : 0 < s₀.layout.sectorsPerCluster)
    (more : Bool) :
    Reading s₀ (x.next more).s ∧ (DataKept s₀ (x.next more).s ↔ DataKept s₀ x.s) ∧
      (x.next more).count = x.count ∧
      (more = true → (x.next more).error = .noError →
        (x.next more).sectorIndex < s₀.layout.sectorsPerCluster) := by
  obtain ⟨hreading, hkept⟩ := h.next p x.sectorIndex x.sectorNumber
  refine ⟨hreading, hkept, rfl, ?_⟩
  rintro rfl herr
  rw [← h.layout]
  exact nextDataSector_index (h.layout ▸ hpos) herr

/-- The step counts if something is left to read. -/
theorem next_noError (herr : x.error = .noError) (more : Prop) [Decidable more] :
    (x.next (decide more)).error = .noError ↔ (more → x.StepWorks) := by
  unfold next StepWorks
  by_cases h : more
  · rw [decide_eq_true h]
    exact ⟨fun hh _ => hh, fun hh => hh h⟩
  · rw [decide_eq_false h]
    exact ⟨fun _ hh => absurd hh h, fun _ => herr⟩

/-- The partial sector at the front. -/
theorem readHead_stage (h : Reading s₀ x.s) (p : Placed s₀)
    (hspc : 0 < s₀.layout.sectorsPerCluster) (herr : x.error = .noError) (hcount : x.count = 0)
    (hpos : 0 < numBytes) (hindex : x.sectorIndex < s₀.layout.sectorsPerCluster)
    (buffer : ℕ → Byte) :
    Reading s₀ (x.readHead numBytes buffer).1.s ∧
      (DataKept s₀ (x.readHead numBytes buffer).1.s ∧
          (x.readHead numBytes buffer).1.error = .noError ↔
        DataKept s₀ x.s ∧ x.HeadWorks numBytes buffer) ∧
      ((x.readHead numBytes buffer).1.error ≠ .noError →
        (x.readHead numBytes buffer).1.count < numBytes) ∧
      ((x.readHead numBytes buffer).1.error = .noError →
        (x.readHead numBytes buffer).1.count ≤ numBytes ∧
        ((x.readHead numBytes buffer).1.count < numBytes →
          (x.readHead numBytes buffer).1.sectorIndex < s₀.layout.sectorsPerCluster)) := by
  unfold readHead HeadWorks
  by_cases hoff : x.sectorOffset = 0
  · rw [if_neg (not_not.mpr hoff)]
    refine ⟨h, and_congr_right fun _ => iff_of_true herr fun hne => absurd hoff hne,
      fun hne => absurd herr hne, fun _ => ⟨?_, fun _ => hindex⟩⟩
    rw [hcount]
    exact Nat.zero_le _
  rw [if_pos hoff]
  simp only
  obtain ⟨size, hsize⟩ : ∃ size, min numBytes (x.s.sectorSize - x.sectorOffset) = size := ⟨_, rfl⟩
  obtain ⟨y, hy⟩ : ∃ y, x.fetch x.sectorOffset size buffer = y := ⟨_, rfl⟩
  obtain ⟨hreading, hkept, hidx, hcnt⟩ := fetch_stage h p x.sectorOffset size buffer
  rw [hsize, hy]
  rw [hy] at hreading hkept hidx hcnt
  rw [hcount] at hcnt
  have hle : size ≤ numBytes := by
    rw [← hsize]
    exact Nat.min_le_left _ _
  split
  · next hbad =>
    rw [if_neg hbad] at hcnt
    refine ⟨hreading, ?_, fun _ => by omega, fun hgood => absurd hgood hbad⟩
    constructor
    · exact fun hh => absurd hh.2 hbad
    · exact fun hh => absurd (hkept.mpr ⟨hh.1, (hh.2 hoff).1⟩).2 hbad
  · next hgood =>
    rw [not_not] at hgood
    rw [if_pos hgood, Nat.zero_add] at hcnt
    split
    · next hend =>
      obtain ⟨hreading', hkept', hcount', hidx'⟩ := next_stage hreading p hspc
        (decide (size < numBytes))
      have hstep := next_noError hgood (size < numBytes)
      rw [hcnt] at hcount'
      dsimp only
      refine ⟨hreading', ?_, fun hne => ?_, fun hno => ⟨by omega, fun hlt => ?_⟩⟩
      · rw [hkept', hstep]
        constructor
        · rintro ⟨hk, hs⟩
          obtain ⟨hk', hload⟩ := hkept.mp ⟨hk, hgood⟩
          exact ⟨hk', fun _ => ⟨hload, fun _ => hs⟩⟩
        · rintro ⟨hk, hh⟩
          obtain ⟨hload, hs⟩ := hh hoff
          exact ⟨(hkept.mpr ⟨hk, hload⟩).1, hs hend⟩
      · rw [hcount']
        by_contra hge
        exact hne (hstep.mpr fun hlt => absurd hlt hge)
      · rw [hcount'] at hlt
        exact hidx' (decide_eq_true hlt) hno
    · next hend =>
      refine ⟨hreading, ?_, fun hne => absurd hgood hne, fun _ => ⟨by omega, fun _ => ?_⟩⟩
      · rw [hkept]
        exact and_congr_right fun _ => ⟨fun hl _ => ⟨hl, fun hge => absurd hge hend⟩,
          fun hh => (hh hoff).1⟩
      · rw [hidx]
        exact hindex

theorem readCopied_error (herr : x.error ≠ .noError) (n : ℕ) (buffer : ℕ → Byte) :
    readCopied numBytes n x buffer = (x, buffer) := by
  cases n with
  | zero => rfl
  | succ n => rw [readCopied, if_neg herr]

/-- Whole sectors through the buffer. -/
theorem readCopied_stage (p : Placed s₀) (hspc : 0 < s₀.layout.sectorsPerCluster)
    (hss : 0 < s₀.sectorSize) (n : ℕ) : ∀ {x : Transfer} (buffer : ℕ → Byte), Reading s₀ x.s →
      x.error = .noError → x.count + n * s₀.sectorSize ≤ numBytes →
      Reading s₀ (readCopied numBytes n x buffer).1.s ∧
        (DataKept s₀ (readCopied numBytes n x buffer).1.s ∧
            (readCopied numBytes n x buffer).1.error = .noError ↔
          DataKept s₀ x.s ∧ CopiedWorks numBytes n x buffer) ∧
        ((readCopied numBytes n x buffer).1.error ≠ .noError →
          (readCopied numBytes n x buffer).1.count < numBytes) ∧
        ((readCopied numBytes n x buffer).1.error = .noError →
          (readCopied numBytes n x buffer).1.count = x.count + n * s₀.sectorSize) := by
  induction n with
  | zero =>
    intro x buffer h herr hcount
    refine ⟨h, and_congr_right fun _ => iff_of_true herr trivial, fun hne => absurd herr hne,
      fun _ => ?_⟩
    rw [Nat.zero_mul]
    rfl
  | succ n ih =>
    intro x buffer h herr hcount
    rw [Nat.succ_mul] at hcount ⊢
    unfold readCopied CopiedWorks
    rw [if_pos herr]
    simp only
    have hsize : x.s.sectorSize = s₀.sectorSize := by
      rw [FileState.sectorSize, FileState.sectorSize, h.vol]
    obtain ⟨y, hy⟩ : ∃ y, x.fetch 0 x.s.sectorSize buffer = y := ⟨_, rfl⟩
    obtain ⟨hreading, hkept, -, hcnt⟩ := fetch_stage h p 0 x.s.sectorSize buffer
    rw [hy] at hreading hkept hcnt
    rw [hy, hsize] at *
    split
    · next hbad =>
      rw [if_neg hbad] at hcnt
      refine ⟨hreading, ?_, fun _ => by omega, fun hgood => absurd hgood hbad⟩
      constructor
      · exact fun hh => absurd hh.2 hbad
      · exact fun hh => absurd (hkept.mpr ⟨hh.1, hh.2.1⟩).2 hbad
    · next hgood =>
      rw [not_not] at hgood
      rw [if_pos hgood] at hcnt
      obtain ⟨hreading', hkept', hcount', -⟩ := next_stage hreading p hspc
        (decide (y.1.count < numBytes))
      have hstep := next_noError hgood (y.1.count < numBytes)
      by_cases hok : (y.1.next (decide (y.1.count < numBytes))).error = .noError
      · obtain ⟨hr, hk, hlt, heq⟩ := ih y.2 hreading' hok (by omega)
        refine ⟨hr, ?_, hlt, fun hno => ?_⟩
        · rw [hk, hkept']
          constructor
          · rintro ⟨hkeep, hworks⟩
            obtain ⟨hkeep', hload⟩ := hkept.mp ⟨hkeep, hgood⟩
            exact ⟨hkeep', hload, hstep.mp hok, hworks⟩
          · rintro ⟨hkeep, hload, -, hworks⟩
            exact ⟨(hkept.mpr ⟨hkeep, hload⟩).1, hworks⟩
        · rw [heq hno, hcount', hcnt]
          omega
      · have hlt : y.1.count < numBytes := by
          by_contra hge
          exact hok (hstep.mpr fun hlt => absurd hlt hge)
        rw [readCopied_error hok]
        refine ⟨hreading', ?_, fun _ => hlt, fun hno => absurd hno hok⟩
        constructor
        · exact fun hh => absurd hh.2 hok
        · exact fun hh => absurd (hstep.mpr hh.2.2.1) hok

theorem readDirect_error (herr : x.error ≠ .noError) (done : ℕ → ℕ) (n whole processed : ℕ)
    (buffer : ℕ → Byte) : readDirect done numBytes n whole processed x buffer = (x, buffer) := by
  cases n with
  | zero => rfl
  | succ n => rw [readDirect, if_neg (fun h => herr h.2)]

/-- A transfer that succeeds reads all its sectors. -/
theorem procSectors_noError {done : ℕ → ℕ} {count processed pos : ℕ} {buffer : ℕ → Byte}
    (h : (mfsReadDeviceSectors x.s.d x.sectorNumber count buffer pos).1 = .noError) :
    x.procSectors done count processed = count := by
  unfold mfsReadDeviceSectors at h
  unfold procSectors
  split
  · next hout =>
    rw [if_pos hout] at h
    cases h
  · next hin =>
    rw [if_neg hin] at h
    cases hfault : x.s.d.ioFault x.s.d.ioCount with
    | none => rfl
    | some junk =>
      rw [hfault] at h
      cases h

/-- One request of the loop. -/
theorem readSectors_stage (h : Reading s₀ x.s) (p : Placed s₀)
    (hspc : 0 < s₀.layout.sectorsPerCluster) (done : ℕ → ℕ) (count processed : ℕ)
    (buffer : ℕ → Byte) :
    Reading s₀ (x.readSectors done numBytes count processed buffer).2.1.s ∧
      (DataKept s₀ (x.readSectors done numBytes count processed buffer).2.1.s ↔
        DataKept s₀ x.s) ∧
      ((mfsReadDeviceSectors x.s.d x.sectorNumber count buffer x.count).1 ≠ .noError →
        (x.readSectors done numBytes count processed buffer).2.1.error ≠ .noError) := by
  obtain ⟨io, hframe⟩ := mfsReadDeviceSectors_frame x.s.d x.sectorNumber count buffer x.count
  obtain ⟨r, hr⟩ : ∃ r, mfsReadDeviceSectors x.s.d x.sectorNumber count buffer x.count = r :=
    ⟨_, rfl⟩
  rw [hr] at hframe
  have hb : Behind x.s.d r.2.2 := by
    rw [hframe]
    exact ⟨rfl, fun hw => hw, fun _ _ _ => rfl⟩
  obtain ⟨hreading, hkept⟩ :=
    @Reading.same s₀ x.s { x.s with d := r.2.2 } h p hb rfl rfl rfl rfl
  unfold readSectors
  rw [hr]
  simp only
  split
  · obtain ⟨hreading', hkept', -⟩ := next_stage
      (x := x.received (x.procSectors done count processed) r) hreading p hspc
      (decide (r.1 = .noError ∧ (x.received (x.procSectors done count processed) r).count < numBytes))
    refine ⟨hreading', hkept'.trans hkept, fun hbad => ?_⟩
    rw [decide_eq_false (fun hh => hbad hh.1)]
    exact hbad
  · exact ⟨hreading, hkept, fun hbad => hbad⟩

/-- Whole sectors without a copy. -/
theorem readDirect_stage (p : Placed s₀) (hspc : 0 < s₀.layout.sectorsPerCluster)
    (hss : 0 < s₀.sectorSize) (hlimit : numBytes < 2 ^ 32) (done : ℕ → ℕ) (n : ℕ) :
    ∀ {whole processed : ℕ} {x : Transfer} (buffer : ℕ → Byte), Reading s₀ x.s →
      x.error = .noError → whole ≤ n → x.count + whole * s₀.sectorSize ≤ numBytes →
      (0 < whole → x.sectorIndex < s₀.layout.sectorsPerCluster) →
      Reading s₀ (readDirect done numBytes n whole processed x buffer).1.s ∧
        (DataKept s₀ (readDirect done numBytes n whole processed x buffer).1.s ∧
            ((readDirect done numBytes n whole processed x buffer).1.error = .noError ∨
              numBytes ≤ (readDirect done numBytes n whole processed x buffer).1.count) ↔
          DataKept s₀ x.s ∧ DirectWorks done numBytes n whole processed x buffer) ∧
        ((readDirect done numBytes n whole processed x buffer).1.error = .noError →
          (readDirect done numBytes n whole processed x buffer).1.count =
            x.count + whole * s₀.sectorSize) := by
  induction n with
  | zero =>
    intro whole processed x buffer h herr hwhole hcount hidx
    obtain rfl : whole = 0 := by omega
    refine ⟨h, and_congr_right fun _ => iff_of_true (Or.inl herr) trivial, fun _ => ?_⟩
    rw [Nat.zero_mul]
    rfl
  | succ n ih =>
    intro whole processed x buffer h herr hwhole hcount hidx
    unfold readDirect DirectWorks
    by_cases hpos : 0 < whole
    swap
    · obtain rfl : whole = 0 := by omega
      rw [if_neg (fun hh => hpos hh.1), Nat.zero_mul]
      exact ⟨h, and_congr_right fun _ => iff_of_true (Or.inl herr) fun hh => absurd hh hpos,
        fun _ => rfl⟩
    rw [if_pos ⟨hpos, herr⟩]
    simp only
    have hsize : x.s.sectorSize = s₀.sectorSize := by
      rw [FileState.sectorSize, FileState.sectorSize, h.vol]
    obtain ⟨count, hcont⟩ : ∃ count, x.contSectors whole = count := ⟨_, rfl⟩
    have hone : 1 ≤ count ∧ count ≤ whole := by
      have hi := hidx hpos
      rw [← hcont, contSectors, h.layout]
      omega
    have hmul := Nat.mul_le_mul_right s₀.sectorSize hone.2
    have hpart : (whole - count) * s₀.sectorSize + count * s₀.sectorSize =
        whole * s₀.sectorSize := by
      rw [← Nat.add_mul, Nat.sub_add_cancel hone.2]
    rw [hcont]
    obtain ⟨hreading, hkept, hbad⟩ := @readSectors_stage s₀ x numBytes h p hspc done count
      processed buffer
    obtain ⟨r, hr⟩ : ∃ r, mfsReadDeviceSectors x.s.d x.sectorNumber count buffer x.count = r :=
      ⟨_, rfl⟩
    rw [hr] at hbad ⊢
    obtain ⟨t, ht⟩ : ∃ t, x.readSectors done numBytes count processed buffer = t := ⟨_, rfl⟩
    rw [ht] at hreading hkept hbad ⊢
    by_cases hno : r.1 = .noError
    · -- the request is answered
      have hproc : x.procSectors done count processed = count :=
        @procSectors_noError x done count processed x.count buffer (by rw [hr]; exact hno)
      have hrec : (x.received count r).count = x.count + count * s₀.sectorSize := by
        rw [received, hsize]
        exact Nat.mod_eq_of_lt (by omega)
      have ht1 : t.1 = count ∧ t.2.1 = (x.received count r).next
          (decide ((x.received count r).count < numBytes)) := by
        rw [← ht, readSectors, hproc, hr]
        simp only
        rw [if_pos (by omega)]
        simp only [hno, true_and, and_self]
      have hstep := next_noError (x := x.received count r) hno
        ((x.received count r).count < numBytes)
      rw [← ht1.2] at hstep
      have hcnt : t.2.1.count = x.count + count * s₀.sectorSize := by
        rw [ht1.2, ← hrec]
        rfl
      rw [if_pos hno, ht1.1]
      by_cases hok : t.2.1.error = .noError
      · have hfound : 0 < whole - count → t.2.1.sectorIndex < s₀.layout.sectorsPerCluster := by
          intro hmore
          have hless : (x.received count r).count < numBytes := by
            have hone' := Nat.mul_le_mul_right s₀.sectorSize hmore
            rw [hrec]
            omega
          rw [ht1.2, decide_eq_true hless] at hok ⊢
          rw [← h.layout] at hspc ⊢
          exact @nextDataSector_index (x.received count r).s hspc _ _ hok
        obtain ⟨hr', hk', heq⟩ := @ih (whole - count) count t.2.1 t.2.2 hreading hok
          (by omega) (by rw [hcnt]; omega) hfound
        refine ⟨hr', ?_, fun hend => ?_⟩
        · rw [hk', hkept]
          exact and_congr_right fun _ => ⟨fun hw _ => ⟨hstep.mp hok, hw⟩, fun hw => (hw hpos).2⟩
        · rw [heq hend, hcnt]
          omega
      · rw [readDirect_error hok]
        have hless : (x.received count r).count < numBytes := by
          by_contra hge
          exact hok (hstep.mpr fun hlt => absurd hlt hge)
        refine ⟨hreading, ?_, fun hend => absurd hend hok⟩
        constructor
        · rintro ⟨-, hend | hfull⟩
          · exact absurd hend hok
          · rw [hcnt, ← hrec] at hfull
            exact absurd hless (not_lt.mpr hfull)
        · rintro ⟨-, hw⟩
          exact absurd (hstep.mpr (hw hpos).1) hok
    · have herr' := hbad hno
      rw [readDirect_error herr', if_neg hno]
      refine ⟨hreading, ?_, fun hend => absurd hend herr'⟩
      rw [hkept]
      exact and_congr_right fun _ => ⟨fun hh _ => hh.resolve_left herr', fun hh => Or.inr (hh hpos)⟩

/-- Whole sectors, either way. -/
theorem readWhole_stage (h : Reading s₀ x.s) (p : Placed s₀)
    (hspc : 0 < s₀.layout.sectorsPerCluster) (hss : 0 < s₀.sectorSize) (hlimit : numBytes < 2 ^ 32)
    (herr : x.error = .noError) (hcount : x.count ≤ numBytes)
    (hindex : x.count < numBytes → x.sectorIndex < s₀.layout.sectorsPerCluster) (done : ℕ → ℕ)
    (address processed : ℕ) (buffer : ℕ → Byte) :
    Reading s₀ (x.readWhole done numBytes address processed buffer).1.s ∧
      (DataKept s₀ (x.readWhole done numBytes address processed buffer).1.s ∧
          ((x.readWhole done numBytes address processed buffer).1.error = .noError ∨
            numBytes ≤ (x.readWhole done numBytes address processed buffer).1.count) ↔
        DataKept s₀ x.s ∧ x.WholeWorks done numBytes address processed buffer) := by
  have hsize : x.s.sectorSize = s₀.sectorSize := by
    rw [FileState.sectorSize, FileState.sectorSize, h.vol]
  have hfits := Nat.div_mul_le_self (numBytes - x.count) s₀.sectorSize
  unfold readWhole WholeWorks
  simp only [hsize]
  split
  · have hmore : 0 < (numBytes - x.count) / s₀.sectorSize →
        x.sectorIndex < s₀.layout.sectorsPerCluster := by
      intro hpos
      apply hindex
      have hne := (Nat.div_pos_iff.mp hpos).2
      omega
    obtain ⟨hreading, hkept, -⟩ := @readDirect_stage s₀ numBytes p hspc hss hlimit done
      ((numBytes - x.count) / s₀.sectorSize) ((numBytes - x.count) / s₀.sectorSize) processed x
      buffer h herr le_rfl (by omega) hmore
    exact ⟨hreading, hkept⟩
  · obtain ⟨hreading, hkept, hshort, -⟩ := @readCopied_stage s₀ numBytes p hspc hss
      ((numBytes - x.count) / s₀.sectorSize) x buffer h herr (by omega)
    refine ⟨hreading, ?_⟩
    rw [← hkept]
    refine and_congr_right fun _ => ⟨fun hh => ?_, Or.inl⟩
    by_contra hbad
    have hlt := hshort hbad
    exact (hh.resolve_left hbad).not_gt hlt

/-- The tail. -/
theorem readTail_stage (h : Reading s₀ x.s) (p : Placed s₀) (buffer : ℕ → Byte) :
    Reading s₀ (x.readTail numBytes buffer).1.s ∧
      (DataKept s₀ (x.readTail numBytes buffer).1.s ∧
          numBytes ≤ (x.readTail numBytes buffer).1.count ↔
        (DataKept s₀ x.s ∧ (x.error = .noError ∨ numBytes ≤ x.count)) ∧
          (x.count < numBytes → x.LoadWorks)) := by
  unfold readTail
  split
  · next hmore =>
    obtain ⟨hreading, hkept, -, hcount⟩ := fetch_stage h p 0 (numBytes - x.count) buffer
    refine ⟨hreading, ?_⟩
    constructor
    · rintro ⟨hk, hfull⟩
      have hno : (x.fetch 0 (numBytes - x.count) buffer).1.error = .noError := by
        by_contra hbad
        rw [if_neg hbad] at hcount
        omega
      obtain ⟨hk', hload⟩ := hkept.mp ⟨hk, hno⟩
      exact ⟨⟨hk', Or.inl hmore.2⟩, fun _ => hload⟩
    · rintro ⟨⟨hk, -⟩, hload⟩
      obtain ⟨hk', hno⟩ := hkept.mpr ⟨hk, hload hmore.1⟩
      rw [if_pos hno] at hcount
      exact ⟨hk', by omega⟩
  · next hstop =>
    refine ⟨h, ⟨fun hh => ⟨⟨hh.1, Or.inr hh.2⟩, fun hlt => absurd hlt (not_lt.mpr hh.2)⟩, ?_⟩⟩
    rintro ⟨⟨hk, hend⟩, -⟩
    refine ⟨hk, not_lt.mp fun hlt => ?_⟩
    exact hstop ⟨hlt, hend.resolve_right (not_le.mpr hlt)⟩

/-- All bytes are read and the data sector is kept if the calls of the transfer work. -/
theorem readBytes_stage (h : Reading s₀ x.s) (p : Placed s₀)
    (hspc : 0 < s₀.layout.sectorsPerCluster) (hss : 0 < s₀.sectorSize) (hpos : 0 < numBytes)
    (hlimit : numBytes < 2 ^ 32) (herr : x.error = .noError) (hcount : x.count = 0)
    (hindex : x.sectorIndex < s₀.layout.sectorsPerCluster) (done : ℕ → ℕ)
    (address processed : ℕ) (buffer : ℕ → Byte) :
    Reading s₀ (x.readBytes done numBytes address processed buffer).1.s ∧
      (DataKept s₀ (x.readBytes done numBytes address processed buffer).1.s ∧
          numBytes ≤ (x.readBytes done numBytes address processed buffer).1.count ↔
        DataKept s₀ x.s ∧ x.ReadWorks done numBytes address processed buffer) := by
  obtain ⟨hreading, hkept, hshort, hnext⟩ := readHead_stage h p hspc herr hcount hpos hindex buffer
  unfold readBytes ReadWorks
  simp only
  obtain ⟨y, hy⟩ : ∃ y, x.readHead numBytes buffer = y := ⟨_, rfl⟩
  rw [hy] at hreading hkept hshort hnext ⊢
  by_cases hno : y.1.error = .noError
  · obtain ⟨hle, hidx⟩ := hnext hno
    obtain ⟨hreading', hkept'⟩ := readWhole_stage hreading p hspc hss hlimit hno hle hidx done
      address processed y.2
    obtain ⟨hreading'', hkept''⟩ := readTail_stage (x :=
      (y.1.readWhole done numBytes address processed y.2).1) hreading' p
      (y.1.readWhole done numBytes address processed y.2).2
    refine ⟨hreading'', ?_⟩
    rw [hkept'', hkept']
    constructor
    · rintro ⟨⟨hk, hwhole⟩, htail⟩
      obtain ⟨hk', hhead⟩ := hkept.mp ⟨hk, hno⟩
      exact ⟨hk', hhead, hwhole, htail⟩
    · rintro ⟨hk, hhead, hwhole, htail⟩
      exact ⟨⟨(hkept.mpr ⟨hk, hhead⟩).1, hwhole⟩, htail⟩
  · have hstay : y.1.readWhole done numBytes address processed y.2 = (y.1, y.2) := by
      unfold readWhole
      simp only
      split
      · exact readDirect_error hno done _ _ _ _
      · exact readCopied_error hno _ _
    have hlt := hshort hno
    rw [hstay, readTail, if_neg (fun hh => hno hh.2)]
    refine ⟨hreading, ?_⟩
    constructor
    · exact fun hh => absurd hh.2 (not_le.mpr hlt)
    · exact fun hh => absurd (hkept.mpr ⟨hh.1, hh.2.1⟩).2 hno

end Transfer

/-! ## Unlocking -/

section Unlock

variable {d : Drive} {buffer : ℕ → Byte}

/-- A failed write is reported. -/
theorem mfsWriteDeviceSectors_reported {count : ℕ}
    (h : (mfsWriteDeviceSectors d n count buffer).1 ≠ .noError) :
    Reported (mfsWriteDeviceSectors d n count buffer).1 := by
  refine ⟨h, ?_⟩
  unfold mfsWriteDeviceSectors
  split
  · exact (by decide : MfsError.diskIsWriteProtected ≠ .eof)
  · split
    · exact (by decide : MfsError.sectorNotFound ≠ .eof)
    · split
      · exact (by decide : MfsError.noError ≠ .eof)
      · exact (by decide : MfsError.writeFault ≠ .eof)

theorem mfsWriteDeviceSectors_other {m : ℕ} (hm : m ≠ n) :
    (mfsWriteDeviceSectors d n 1 buffer).2.device m = d.device m := by
  have hstore : ∀ b : ℕ → Byte, storeSectors d n 1 b m = d.device m := fun b =>
    funext fun o => storeSectors_of_notMem (by omega)
  unfold mfsWriteDeviceSectors
  split
  · rfl
  · split
    · rfl
    · split
      · exact hstore _
      · exact hstore _

theorem mfsWriteDeviceSectors_noError (h : (mfsWriteDeviceSectors d n 1 buffer).1 = .noError)
    {o : ℕ} (ho : o < d.vol.sectorSize) :
    (mfsWriteDeviceSectors d n 1 buffer).2.device n o = buffer o := by
  unfold mfsWriteDeviceSectors at h ⊢
  split
  · next hro =>
    rw [if_pos hro] at h
    cases h
  · next hro =>
    rw [if_neg hro] at h
    split
    · next hout =>
      rw [if_pos hout] at h
      cases h
    · next hin =>
      rw [if_neg hin] at h
      cases hfault : d.ioFault d.ioCount with
      | none =>
        simp only
        rw [storeSectors_of_mem le_rfl (Nat.lt_succ_self n) ho, Nat.sub_self, Nat.zero_mul,
          Nat.zero_add]
      | some junk =>
        rw [hfault] at h
        cases h

/-- Flushing the data sector keeps it, whether the write works or not. -/
theorem Reading.flush (h : Reading s₀ s) (p : Placed s₀) :
    Reading s₀ s.mfsFlushDataSectorBuffer.2 ∧
      (DataKept s₀ s.mfsFlushDataSectorBuffer.2 ↔ DataKept s₀ s) ∧
      ∀ m, (s.dataSectorDirty = true → m ≠ s₀.dataSectorNumber) →
        s.mfsFlushDataSectorBuffer.2.d.device m = s.d.device m := by
  cases hdirty : s.dataSectorDirty with
  | false =>
    rw [flush_clean hdirty]
    exact ⟨h, Iff.rfl, fun _ _ => rfl⟩
  | true =>
    obtain ⟨h₀, hnumber, hdata⟩ := h.dirty hdirty
    have hro : ¬s.d.vol.readOnly = true := by
      rw [h.vol, p.writable h₀]
      exact Bool.false_ne_true
    have hss : s.sectorSize = s₀.sectorSize := by
      rw [FileState.sectorSize, FileState.sectorSize, h.vol]
    obtain ⟨dev, io, hframe⟩ := mfsWriteDeviceSectors_frame s.d s.dataSectorNumber 1 s.dataSector
    have hother : ∀ m, (True → m ≠ s₀.dataSectorNumber) →
        (mfsWriteDeviceSectors s.d s.dataSectorNumber 1 s.dataSector).2.device m = s.d.device m :=
      fun m hm => mfsWriteDeviceSectors_other (by rw [hnumber]; exact hm trivial)
    unfold FileState.mfsFlushDataSectorBuffer
    rw [if_neg hro, if_pos hdirty]
    simp only
    split
    · next hno =>
      refine ⟨?_, iff_of_true (fun _ => Or.inr fun o ho => ?_) (h.kept hdirty), hother⟩
      · rw [hframe]
        exact ⟨h.vol, h.layout, h.window, fun hd => absurd hd Bool.false_ne_true⟩
      · have hwritten := mfsWriteDeviceSectors_noError hno (hss ▸ ho)
        rw [← hnumber, ← hdata o ho]
        exact hwritten
    · have hreading : Reading s₀ { s with
          d := (mfsWriteDeviceSectors s.d s.dataSectorNumber 1 s.dataSector).2 } := by
        rw [hframe]
        exact ⟨h.vol, h.layout, h.window, h.dirty⟩
      exact ⟨hreading, iff_of_true (hreading.kept hdirty) (h.kept hdirty), hother⟩

end Unlock

/-- What a drive says about its buffers, with the directory sector. -/
structure BuffersPlaced (f : OpenFile) : Prop extends Placed f.s where
  dirWritable : f.dirSectorDirty = true → f.s.d.vol.readOnly = false
  dirBehind : f.dirSectorDirty = true → f.s.d.vol.fatEnd ≤ f.dirSectorNumber
  apart : f.dirSectorDirty = true → f.s.dataSectorDirty = true →
    f.dirSectorNumber ≠ f.s.dataSectorNumber

/-- If the drive flushes its directory sector when it is unlocked, that puts the bytes on the
device. -/
def DirSaved (f : OpenFile) : Prop :=
  f.s.layout.writeCachePolicy = .writeThrough → f.dirSectorDirty = true →
    ∀ o < f.s.sectorSize,
      f.mfsFlushDirectorySectorBuffer.2.s.d.device f.dirSectorNumber o = f.dirSector o

/-- A read of `f` has come to `g`, which has the same directory sector. -/
structure OpenFile.Reading (f g : OpenFile) : Prop where
  data : Mfs.Reading f.s g.s
  number : g.dirSectorNumber = f.dirSectorNumber
  dirty : g.dirSectorDirty = f.dirSectorDirty
  bytes : g.dirSector = f.dirSector

namespace OpenFile

variable {f g : OpenFile}

theorem flushDir_clean (h : g.dirSectorDirty = false) :
    g.mfsFlushDirectorySectorBuffer = (.noError, g) := by
  unfold mfsFlushDirectorySectorBuffer
  split
  · rfl
  · rw [if_neg (by rw [h]; exact Bool.false_ne_true)]

theorem flushDir_dirty (hro : g.s.d.vol.readOnly = false) (h : g.dirSectorDirty = true) :
    g.mfsFlushDirectorySectorBuffer =
      ((mfsWriteDeviceSectors g.s.d g.dirSectorNumber 1 g.dirSector).1, { g with
        s := { g.s with
          d := (mfsWriteDeviceSectors g.s.d g.dirSectorNumber 1 g.dirSector).2 }
        dirSectorDirty := false }) := by
  unfold mfsFlushDirectorySectorBuffer
  rw [if_neg (by rw [hro]; exact Bool.false_ne_true), if_pos h]

/-- Flushing the directory sector leaves the data sector. -/
theorem Reading.flushDir (h : f.Reading g) (p : BuffersPlaced f) :
    Mfs.Reading f.s g.mfsFlushDirectorySectorBuffer.2.s ∧
      (DataKept f.s g.mfsFlushDirectorySectorBuffer.2.s ↔ DataKept f.s g.s) ∧
      g.mfsFlushDirectorySectorBuffer.2.dirSectorDirty = false ∧
      (¬Reported g.mfsFlushDirectorySectorBuffer.1 → g.mfsFlushDirectorySectorBuffer.1 = .noError ∧
        (f.dirSectorDirty = true → ∀ o < f.s.sectorSize,
          g.mfsFlushDirectorySectorBuffer.2.s.d.device f.dirSectorNumber o = f.dirSector o)) := by
  cases hdirty : g.dirSectorDirty with
  | false =>
    rw [flushDir_clean hdirty]
    refine ⟨h.data, Iff.rfl, hdirty, fun _ => ⟨rfl, fun hd => ?_⟩⟩
    rw [← h.dirty, hdirty] at hd
    exact absurd hd Bool.false_ne_true
  | true =>
    have hd : f.dirSectorDirty = true := h.dirty ▸ hdirty
    have hro : g.s.d.vol.readOnly = false := by
      rw [h.data.vol]
      exact p.dirWritable hd
    obtain ⟨dev, io, hframe⟩ := mfsWriteDeviceSectors_frame g.s.d g.dirSectorNumber 1 g.dirSector
    rw [flushDir_dirty hro hdirty]
    refine ⟨?_, ?_, rfl, fun hno => ?_⟩
    · rw [hframe]
      exact ⟨h.data.vol, h.data.layout, h.data.window, h.data.dirty⟩
    · refine forall_congr' fun hdata => ?_
      have hne : f.s.dataSectorNumber ≠ g.dirSectorNumber := by
        rw [h.number]
        exact (p.apart hd hdata).symm
      simp only
      rw [mfsWriteDeviceSectors_other hne]
    · have hok : (mfsWriteDeviceSectors g.s.d g.dirSectorNumber 1 g.dirSector).1 = .noError := by
        by_contra hbad
        exact hno (mfsWriteDeviceSectors_reported hbad)
      refine ⟨hok, fun _ o ho => ?_⟩
      have hss : f.s.sectorSize = g.s.sectorSize := by
        rw [FileState.sectorSize, FileState.sectorSize, h.data.vol]
      rw [← h.number, ← h.bytes]
      exact mfsWriteDeviceSectors_noError hok (by rw [hss] at ho; exact ho)

/-- A directory sector that is not in the buffer any more is kept if the device has it. -/
theorem dirKept_clean (h : g.dirSectorDirty = false) : DirKept f g ↔
    (f.dirSectorDirty = true → ∀ o < f.s.sectorSize,
      g.s.d.device f.dirSectorNumber o = f.dirSector o) := by
  refine imp_congr_right fun _ => ⟨fun hh => hh.resolve_left fun hd => ?_, Or.inr⟩
  rw [h] at hd
  exact absurd hd.1 Bool.false_ne_true

/-- The flushes of the buffers. -/
theorem Reading.flushBuffers (h : f.Reading g) (p : BuffersPlaced f) :
    Mfs.Reading f.s g.flushBuffers.2.s ∧
      (DataKept f.s g.flushBuffers.2.s ↔ DataKept f.s g.s) ∧
      (DirKept f g.flushBuffers.2 ↔ DirSaved g) ∧ (¬Reported g.flushBuffers.1 → DirSaved g) := by
  unfold OpenFile.flushBuffers DirSaved
  by_cases hpolicy : g.s.layout.writeCachePolicy = .writeThrough
  swap
  · rw [if_neg hpolicy]
    refine ⟨h.data, Iff.rfl, iff_of_true (fun hd => Or.inl ⟨h.dirty.trans hd, h.number, ?_⟩)
      (fun hp => absurd hp hpolicy), fun _ hp => absurd hp hpolicy⟩
    intro o _
    rw [h.bytes]
  obtain ⟨hreading, hkept, hclean, hok⟩ := h.flushDir p
  have hss : g.s.sectorSize = f.s.sectorSize := by
    rw [FileState.sectorSize, FileState.sectorSize, h.data.vol]
  simp only [hpolicy, true_imp_iff, if_true, hss, h.dirty, h.number, h.bytes]
  split
  · next hno =>
    obtain ⟨hreading', hkept', hother⟩ := hreading.flush p.toPlaced
    refine ⟨hreading', hkept'.trans hkept, ?_, fun _ => (hok (fun hr => hr.1 hno)).2⟩
    refine Iff.trans (dirKept_clean (by exact hclean)) (imp_congr_right fun hd => ?_)
    simp only
    rw [hother _ fun hdata => p.apart hd (hreading.dirty hdata).1]
  · refine ⟨hreading, hkept, dirKept_clean hclean, fun hr => (hok hr).2⟩

/-- Unlocking keeps the data sector; it keeps the directory sector if that is written, and tells if
it is not. -/
theorem Reading.unlock (h : f.Reading g) (p : BuffersPlaced f) :
    (DataKept f.s g.mfsUnlock.2.s ↔ DataKept f.s g.s) ∧
      (DirKept f g.mfsUnlock.2 ↔ DirSaved g) ∧ (¬Reported g.mfsUnlock.1 → DirSaved g) := by
  obtain ⟨hreading, hkept, hdir, hok⟩ := h.flushBuffers p
  have hb := mfsFlushFatCache_behind g.flushBuffers.2.s.d
  unfold OpenFile.mfsUnlock
  simp only
  split
  · next hno =>
    obtain ⟨-, hkept'⟩ := @Mfs.Reading.same f.s g.flushBuffers.2.s
      { g.flushBuffers.2.s with d := (mfsFlushFatCache g.flushBuffers.2.s.d).2 } hreading
      p.toPlaced hb rfl rfl rfl rfl
    refine ⟨hkept'.trans hkept, ?_, fun _ => hok fun hr => hr.1 hno.1⟩
    rw [← hdir]
    refine forall_congr' fun hd => ?_
    simp only
    rw [hb.device hreading.window]
    rw [hreading.vol]
    exact p.dirBehind hd
  · exact ⟨hkept, hdir, hok⟩

/-! ## Reads -/

/-- Nothing that fails is swallowed. The read does not begin behind the end of the chain with bytes
left, or it is refused before; then a flush that fails when the drive is unlocked is told, or else
the calls of the transfer work. -/
def Tells (f : OpenFile) (numBytes address processed : ℕ) (buffer : ℕ → Byte) : Prop :=
  numBytes = 0 ∨ address = 0 ∨ f.dosDisk = false ∨
    (f.access ≠ accessReadOnly ∧ f.access ≠ accessReadWrite) ∨
    if f.s.currentCluster = eofCluster then f.bytesLeft = 0 ∧ DirSaved f
    else Reported (f.readBody numBytes address processed buffer).2.2.mfsUnlock.1 ∨
      f.bytesLeft = 0 ∨
      (f.readSetup.transfer (min f.s.location f.s.fileSize)).ReadWorks f.readDone
        (min numBytes f.bytesLeft) address processed buffer

theorem Reading.refl (p : BuffersPlaced f) : f.Reading f :=
  ⟨Mfs.Reading.refl p.toPlaced, rfl, rfl, rfl⟩

theorem dataKept_refl (s : FileState) : DataKept s s := fun hd => Or.inl ⟨hd, rfl, fun _ _ => rfl⟩

theorem readSetup_reading (p : BuffersPlaced f) :
    Mfs.Reading f.s f.readSetup ∧ DataKept f.s f.readSetup := by
  have hrefl := Mfs.Reading.refl p.toPlaced
  unfold readSetup
  split
  · have hsame := @Mfs.Reading.same f.s f.s
      { f.s with previousCluster := 0, currentCluster := f.s.firstCluster } hrefl p.toPlaced
      (Behind.refl f.s.d) rfl rfl rfl rfl
    exact ⟨hsame.1, hsame.2.mpr (dataKept_refl f.s)⟩
  · exact ⟨hrefl, dataKept_refl f.s⟩

/-- What a read has done when the drive is unlocked. -/
theorem readBody_stage (p : BuffersPlaced f) (hss : 0 < f.s.sectorSize)
    (hspc : 0 < f.s.layout.sectorsPerCluster) (hsize : f.s.fileSize < 2 ^ 32)
    {numBytes : ℕ} (hpos : 0 < numBytes) (address processed : ℕ) (buffer : ℕ → Byte) :
    f.Reading (f.readBody numBytes address processed buffer).2.2 ∧
      (DataKept f.s (f.readBody numBytes address processed buffer).2.2.s ∧
          min numBytes f.bytesLeft ≤ (f.readBody numBytes address processed buffer).1 ↔
        f.bytesLeft = 0 ∨
          (f.readSetup.transfer (min f.s.location f.s.fileSize)).ReadWorks f.readDone
            (min numBytes f.bytesLeft) address processed buffer) := by
  obtain ⟨hsetup, hkept⟩ := readSetup_reading p
  unfold readBody
  split
  · next hnone =>
    rw [hnone, Nat.min_zero]
    exact ⟨⟨hsetup, rfl, rfl, rfl⟩, iff_of_true ⟨hkept, Nat.zero_le _⟩ (Or.inl rfl)⟩
  · next hsome =>
    have hle : f.bytesLeft ≤ f.s.fileSize := Nat.sub_le _ _
    have hidx : (f.readSetup.transfer (min f.s.location f.s.fileSize)).sectorIndex <
        f.s.layout.sectorsPerCluster := by
      have hcluster : f.readSetup.clusterSize = f.s.layout.sectorsPerCluster * f.s.sectorSize := by
        rw [FileState.clusterSize, FileState.sectorSize, hsetup.vol, hsetup.layout]
      have hsector : f.readSetup.sectorSize = f.s.sectorSize := by
        rw [FileState.sectorSize, FileState.sectorSize, hsetup.vol]
      simp only [FileState.transfer]
      rw [hcluster, hsector]
      exact Nat.div_lt_of_lt_mul (by
        rw [Nat.mul_comm f.s.sectorSize]
        exact Nat.mod_lt _ (Nat.mul_pos hspc hss))
    obtain ⟨hreading, hiff⟩ := @Transfer.readBytes_stage f.s
      (f.readSetup.transfer (min f.s.location f.s.fileSize)) (min numBytes f.bytesLeft) hsetup
      p.toPlaced hspc hss (by omega) (by omega) rfl rfl hidx f.readDone address processed buffer
    obtain ⟨hreading', hsame⟩ := @Mfs.Reading.same f.s
      (f.readTransfer (min numBytes f.bytesLeft) address processed buffer).1.s
      { (f.readTransfer (min numBytes f.bytesLeft) address processed buffer).1.s with
        location := min f.s.location f.s.fileSize +
          (f.readTransfer (min numBytes f.bytesLeft) address processed buffer).1.count
        savedPosition := min f.s.location f.s.fileSize +
          (f.readTransfer (min numBytes f.bytesLeft) address processed buffer).1.count }
      hreading p.toPlaced (Behind.refl _) rfl rfl rfl rfl
    refine ⟨⟨hreading', rfl, rfl, rfl⟩, ?_⟩
    simp only
    rw [hsame, or_iff_right hsome]
    exact hiff.trans (and_iff_right hkept)

end OpenFile

/-- A file of 100 bytes in cluster 2, on a drive with caches that are written back. -/
def hundredBytes (ioFault : ℕ → Option (ℕ → Byte)) : OpenFile where
  s := {
    d := { filledDrive .fat12 2 3 0 with ioFault := ioFault }
    layout := {
      sectorsPerCluster := 1
      dataStartSector := 37
      alignmentMask := 3
      writeCachePolicy := .writeBack
      fatCachePolicy := .writeBack }
    nextFreeCluster := 3
    dataSectorNumber := 2 ^ 32 - 1
    dataSectorDirty := false
    dataSector := fun _ => 0
    location := 0
    savedPosition := 0
    currentCluster := 2
    previousCluster := 0
    firstCluster := 2
    fileSize := 100
    full := false }
  dosDisk := true
  access := accessReadOnly
  dirSectorNumber := 5
  dirSectorDirty := false
  dirSector := fun _ => 0
  readDone := fun _ => 0
  outputFlush := .noError

theorem hundredBytes_placed (ioFault : ℕ → Option (ℕ → Byte)) :
    BuffersPlaced (hundredBytes ioFault) := by
  have hclean : ∀ {P : Prop}, false = true → P := fun h => absurd h Bool.false_ne_true
  exact ⟨⟨hclean, hclean, hclean⟩, hclean, hclean, hclean⟩

end Mqx.Mfs
