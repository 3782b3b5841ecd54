import Mqx.Library.BitString

/-!
# The FAT window of a mounted drive

A mounted drive keeps a window of `fatCacheSize` consecutive sectors of the
file allocation table in memory. `mfsReadFat` moves the window to the sector
that holds a byte offset, after `mfsFlushFatCache` has written a changed window
to every copy of the table on the device.

Device transfers can fail at any time and a failed transfer may leave any bytes
behind; a stream of faults, one for each transfer, decides this.
-/

namespace Mqx.Mfs

abbrev Byte := BitVec 8

inductive FatType where
  | fat12
  | fat16
  | fat32
  deriving DecidableEq, Repr

/-- The width of an entry in bits. -/
def FatType.bits : FatType → ℕ
  | fat12 => 12
  | fat16 => 16
  | fat32 => 32

/-- The `_mfs_error` codes of the FAT and file functions. -/
inductive MfsError where
  | noError
  | invalidClusterNumber
  | diskIsWriteProtected
  | sectorNotFound
  | readFault
  | writeFault
  | invalidParameter
  | eof
  | diskFull
  | lostChain
  | badDiskUnit
  | sharingViolation
  | accessDenied
  | fileExists
  | insufficientMemory
  | notADosDisk
  | unknownFsVersion
  | fileNotFound
  deriving DecidableEq, Repr

/-- What mounting computes from the boot sector and no FAT function changes.
`fatSize` is `BPB32.FAT_SIZE` on a FAT32 drive and `BPB.SECTORS_PER_FAT` on the
others. -/
structure Volume where
  fatType : FatType
  sectorSize : ℕ
  megaSectors : ℕ
  numberOfFat : ℕ
  fatSize : ℕ
  fatStartSector : ℕ
  lastCluster : ℕ
  fatCacheSize : ℕ
  readOnly : Bool

/-- The fields of `MFS_DRIVE_STRUCT` behind the FAT functions, with the device:
`device s o` is byte `o` of sector `s`. The transfer number `n` fails when
`ioFault n` is some byte string, which is then left in the target. -/
structure Drive where
  vol : Volume
  fatCache : ℕ → Byte
  fatCacheStart : ℕ
  fatCacheDirty : Bool
  freeCount : ℕ
  device : ℕ → ℕ → Byte
  ioFault : ℕ → Option (ℕ → Byte)
  ioCount : ℕ

/-! ## Transfers -/

/-- `buf` with `size` bytes of `src` stored from `pos` on. -/
def storeBytes (buf : ℕ → Byte) (pos size : ℕ) (src : ℕ → Byte) : ℕ → Byte :=
  fun o => if pos ≤ o ∧ o < pos + size then src (o - pos) else buf o

/-- `MFS_Read_device_sector` into the FAT cache from `pos` on. -/
def mfsReadDeviceSector (d : Drive) (sectorNumber pos : ℕ) : MfsError × Drive :=
  if sectorNumber > d.vol.megaSectors then (.sectorNotFound, d)
  else
    match d.ioFault d.ioCount with
    | none =>
      (.noError, { d with
        fatCache := storeBytes d.fatCache pos d.vol.sectorSize (d.device sectorNumber)
        ioCount := d.ioCount + 1 })
    | some junk =>
      (.readFault, { d with
        fatCache := storeBytes d.fatCache pos d.vol.sectorSize junk
        ioCount := d.ioCount + 1 })

/-- `MFS_Write_device_sector` from the FAT cache at `pos`. -/
def mfsWriteDeviceSector (d : Drive) (sectorNumber pos : ℕ) : MfsError × Drive :=
  if d.vol.readOnly then (.diskIsWriteProtected, d)
  else if sectorNumber > d.vol.megaSectors then (.sectorNotFound, d)
  else
    match d.ioFault d.ioCount with
    | none =>
      (.noError, { d with
        device := Function.update d.device sectorNumber
          (storeBytes (d.device sectorNumber) 0 d.vol.sectorSize (fun o => d.fatCache (pos + o)))
        ioCount := d.ioCount + 1 })
    | some junk =>
      (.writeFault, { d with
        device := Function.update d.device sectorNumber
          (storeBytes (d.device sectorNumber) 0 d.vol.sectorSize junk)
        ioCount := d.ioCount + 1 })

/-! ## The window -/

/-- The inner loop of `MFS_Flush_fat_cache`: cache sectors `i, i + 1, ...`,
`n` of them, into copy `fat` of the table. -/
def flushFatSectors (fat : ℕ) : ℕ → ℕ → Drive → MfsError × Drive
  | 0, _, d => (.noError, d)
  | n + 1, i, d =>
    let r := mfsWriteDeviceSector d
      (d.vol.fatStartSector + d.fatCacheStart + i + fat * d.vol.fatSize) (d.vol.sectorSize * i)
    if r.1 = .noError then flushFatSectors fat n (i + 1) r.2 else r

/-- The outer loop: the copies `fat, fat + 1, ...` of the table, `m` of them. -/
def flushFatCopies : ℕ → ℕ → Drive → MfsError × Drive
  | 0, _, d => (.noError, d)
  | m + 1, fat, d =>
    let r := flushFatSectors fat d.vol.fatCacheSize 0 d
    if r.1 = .noError then flushFatCopies m (fat + 1) r.2 else r

def mfsFlushFatCache (d : Drive) : MfsError × Drive :=
  if d.vol.readOnly then (.noError, d)
  else if d.fatCacheDirty then
    let r := flushFatCopies d.vol.numberOfFat 0 d
    if r.1 = .noError then (.noError, { r.2 with fatCacheDirty := false }) else r
  else (.noError, d)

/-- The loop of `MFS_Read_fat`: sectors `i, i + 1, ...` of the window at
`neededSector`, `n` of them, into the cache. -/
def readFatSectors (neededSector : ℕ) : ℕ → ℕ → Drive → MfsError × Drive
  | 0, _, d => (.noError, d)
  | n + 1, i, d =>
    let r := mfsReadDeviceSector d (d.vol.fatStartSector + neededSector + i) (d.vol.sectorSize * i)
    if r.1 = .noError then readFatSectors neededSector n (i + 1) r.2 else r

/-- The window moved to `start`, once its old contents are safe. -/
def readFatWindow (start : ℕ) (d : Drive) : MfsError × Drive :=
  let r := readFatSectors start d.vol.fatCacheSize 0 d
  if r.1 = .noError then
    (.noError, { r.2 with fatCacheStart := start, fatCacheDirty := false })
  else r

/-- The last sector `MFS_Read_fat` needs: a FAT12 entry may end in the next one. -/
def neededEndSector (v : Volume) (offset : ℕ) : ℕ :=
  if v.fatType = .fat12 then (offset + 1) / v.sectorSize else offset / v.sectorSize

def mfsReadFat (d : Drive) (offset : ℕ) : MfsError × Drive :=
  let neededSector := offset / d.vol.sectorSize
  if neededSector < d.fatCacheStart ∨
      neededEndSector d.vol offset > (d.fatCacheStart + d.vol.fatCacheSize - 1) % 2 ^ 32 then
    let r := mfsFlushFatCache d
    if r.1 = .noError then
      readFatWindow (min neededSector (d.vol.fatSize - d.vol.fatCacheSize)) r.2
    else r
  else (.noError, d)

/-! ## What the window stands for -/

/-- Byte `o` of the table: from the window where it covers `o`, else from the
first copy on the device. -/
def fatByte (d : Drive) (o : ℕ) : Byte :=
  if d.fatCacheStart ≤ o / d.vol.sectorSize ∧
      o / d.vol.sectorSize < d.fatCacheStart + d.vol.fatCacheSize then
    d.fatCache (o - d.fatCacheStart * d.vol.sectorSize)
  else d.device (d.vol.fatStartSector + o / d.vol.sectorSize) (o % d.vol.sectorSize)

/-- The geometry of a FAT volume as mounting sets it up: the window has two
sectors unless the table has one, cluster numbers are at most
`CLUSTER_MAX_GOOD`, and the table has an entry for each of them. -/
structure Volume.Ok (v : Volume) : Prop where
  sectorSize_pos : 0 < v.sectorSize
  sectorSize_dvd : v.sectorSize % 4 = 0
  cache_pos : 0 < v.fatCacheSize
  cache_le : v.fatCacheSize ≤ v.fatSize
  cache_two : 2 ≤ v.fatCacheSize ∨ v.fatSize = 1
  copies : 0 < v.numberOfFat
  size_lt : v.fatSize < 2 ^ 32
  last_le : v.lastCluster ≤ 0x0FFFFFEF
  holds_last : v.fatType.bits * (v.lastCluster + 1) ≤ 8 * (v.fatSize * v.sectorSize)

/-- The table is in sync: the window is empty, as after mounting, or lies in
the table, and unless it is marked dirty it holds what the device holds. -/
structure Drive.InSync (d : Drive) : Prop where
  vol : d.vol.Ok
  window : d.fatCacheStart = 2 ^ 32 - 1 ∨ d.fatCacheStart + d.vol.fatCacheSize ≤ d.vol.fatSize
  dirty : d.fatCacheDirty = true →
    d.vol.readOnly = false ∧ d.fatCacheStart + d.vol.fatCacheSize ≤ d.vol.fatSize
  clean : d.fatCacheDirty = false → d.fatCacheStart + d.vol.fatCacheSize ≤ d.vol.fatSize →
    ∀ k < d.vol.fatCacheSize, ∀ o < d.vol.sectorSize,
      d.fatCache (d.vol.sectorSize * k + o) =
        d.device (d.vol.fatStartSector + d.fatCacheStart + k) o

/-! ## Successful transfers -/

theorem mfsReadDeviceSector_noError {d d' : Drive} {s pos : ℕ}
    (h : mfsReadDeviceSector d s pos = (.noError, d')) :
    d' = { d with
      fatCache := storeBytes d.fatCache pos d.vol.sectorSize (d.device s)
      ioCount := d.ioCount + 1 } := by
  unfold mfsReadDeviceSector at h
  split at h
  · simp at h
  · split at h
    · exact (congrArg Prod.snd h).symm
    · simp at h

theorem mfsWriteDeviceSector_noError {d d' : Drive} {s pos : ℕ}
    (h : mfsWriteDeviceSector d s pos = (.noError, d')) :
    d' = { d with
      device := Function.update d.device s
        (storeBytes (d.device s) 0 d.vol.sectorSize (fun o => d.fatCache (pos + o)))
      ioCount := d.ioCount + 1 } := by
  unfold mfsWriteDeviceSector at h
  split at h
  · simp at h
  · split at h
    · simp at h
    · split at h
      · exact (congrArg Prod.snd h).symm
      · simp at h

/-- A step of an error-checked loop that ends well went well itself. -/
theorem ite_noError {r : MfsError × Drive} (rest : Drive → MfsError × Drive) {d' : Drive}
    (h : (if r.1 = .noError then rest r.2 else r) = (.noError, d')) :
    ∃ d₁, r = (.noError, d₁) ∧ rest d₁ = (.noError, d') := by
  split at h
  · rename_i h1
    exact ⟨r.2, Prod.ext h1 rfl, h⟩
  · rename_i h1
    exact absurd (congrArg Prod.fst h) h1

theorem flushFatSectors_noError {fat : ℕ} (n : ℕ) :
    ∀ {i : ℕ} {d d' : Drive}, flushFatSectors fat n i d = (.noError, d') →
      ∃ dev io, d' = { d with device := dev, ioCount := io } ∧
        ∀ s, ∀ o < d.vol.sectorSize, dev s o =
          if d.vol.fatStartSector + d.fatCacheStart + fat * d.vol.fatSize + i ≤ s ∧
              s < d.vol.fatStartSector + d.fatCacheStart + fat * d.vol.fatSize + (i + n) then
            d.fatCache (d.vol.sectorSize *
              (s - (d.vol.fatStartSector + d.fatCacheStart + fat * d.vol.fatSize)) + o)
          else d.device s o := by
  induction n with
  | zero =>
    intro i d d' h
    have hd : d = d' := congrArg Prod.snd h
    subst hd
    refine ⟨d.device, d.ioCount, rfl, fun s o _ => ?_⟩
    rw [if_neg (by omega)]
  | succ n ih =>
    intro i d d' h
    obtain ⟨d₁, h1, h2⟩ := ite_noError (flushFatSectors fat n (i + 1)) h
    have hd1 := mfsWriteDeviceSector_noError h1
    subst hd1
    obtain ⟨dev, io, rfl, hdev⟩ := ih h2
    refine ⟨dev, io, rfl, fun s o ho => ?_⟩
    have hs := hdev s o ho
    simp only at hs
    rw [hs]
    generalize hbase : d.vol.fatStartSector + d.fatCacheStart + fat * d.vol.fatSize = base
    have hsec : d.vol.fatStartSector + d.fatCacheStart + i + fat * d.vol.fatSize = base + i := by
      omega
    rw [hsec]
    by_cases hlt : base + (i + 1) ≤ s ∧ s < base + (i + 1 + n)
    · rw [if_pos hlt, if_pos (by omega)]
    · rw [if_neg hlt]
      by_cases heq : s = base + i
      · subst heq
        rw [if_pos (by omega), Function.update_self, storeBytes, if_pos (by omega)]
        congr 2
        · congr 1
          omega
      · rw [if_neg (by omega), Function.update_of_ne heq]

/-- Of the first copy of the table a flush rewrites the window, and the later
copies lie behind it. -/
theorem flushFatCopies_noError (m : ℕ) :
    ∀ {fat : ℕ} {d d' : Drive}, flushFatCopies m fat d = (.noError, d') →
      ∃ dev io, d' = { d with device := dev, ioCount := io } ∧
        ∀ s < d.vol.fatStartSector + d.vol.fatSize, ∀ o < d.vol.sectorSize, dev s o =
          if (fat = 0 ∧ 0 < m) ∧ d.vol.fatStartSector + d.fatCacheStart ≤ s ∧
              s < d.vol.fatStartSector + d.fatCacheStart + d.vol.fatCacheSize then
            d.fatCache (d.vol.sectorSize * (s - (d.vol.fatStartSector + d.fatCacheStart)) + o)
          else d.device s o := by
  induction m with
  | zero =>
    intro fat d d' h
    have hd : d = d' := congrArg Prod.snd h
    subst hd
    refine ⟨d.device, d.ioCount, rfl, fun s _ o _ => ?_⟩
    rw [if_neg (by omega)]
  | succ m ih =>
    intro fat d d' h
    obtain ⟨d₁, h1, h2⟩ := ite_noError (flushFatCopies m (fat + 1)) h
    obtain ⟨dev₁, io₁, rfl, hdev₁⟩ := flushFatSectors_noError _ h1
    obtain ⟨dev, io, rfl, hdev⟩ := ih h2
    refine ⟨dev, io, rfl, fun s hs o ho => ?_⟩
    have hlater := hdev s hs o ho
    have hthis := hdev₁ s o ho
    simp only [Nat.add_eq_zero_iff, one_ne_zero, and_false, false_and, if_false] at hlater
    rw [hlater, hthis]
    cases fat with
    | zero => simp only [Nat.zero_mul, Nat.add_zero, Nat.zero_add, Nat.zero_lt_succ, true_and]
    | succ fat =>
      have hbehind : d.vol.fatSize ≤ (fat + 1) * d.vol.fatSize := Nat.le_mul_of_pos_left _ (by omega)
      rw [if_neg (by omega), if_neg (by omega)]

/-- The cache offset of a byte of the window. -/
theorem window_offset (ss : ℕ) {start o : ℕ} (h : start ≤ o / ss) :
    o - start * ss = ss * (o / ss - start) + o % ss := by
  have hdiv := Nat.div_add_mod o ss
  have hmul : ss * (o / ss - start) = ss * (o / ss) - start * ss := by
    rw [Nat.mul_sub, Nat.mul_comm ss start]
  have hle : start * ss ≤ ss * (o / ss) := by
    rw [Nat.mul_comm]
    exact Nat.mul_le_mul_left ss h
  omega

theorem Drive.InSync.fatByte_device {d : Drive} (h : d.InSync) (hc : d.fatCacheDirty = false)
    {o : ℕ} (ho : o / d.vol.sectorSize < d.vol.fatSize) :
    fatByte d o = d.device (d.vol.fatStartSector + o / d.vol.sectorSize) (o % d.vol.sectorSize) := by
  unfold fatByte
  split
  · rename_i hw
    have hin : d.fatCacheStart + d.vol.fatCacheSize ≤ d.vol.fatSize := by
      have hsize := h.vol.size_lt
      rcases h.window with hs | hs
      · omega
      · exact hs
    have hmod : o % d.vol.sectorSize < d.vol.sectorSize := Nat.mod_lt _ h.vol.sectorSize_pos
    rw [window_offset _ hw.1, h.clean hc hin _ (by omega) _ hmod]
    congr 1
    omega
  · rfl

/-- After a flush the window is clean and the table is what it was. -/
theorem mfsFlushFatCache_noError {d d' : Drive} (h : d.InSync)
    (hf : mfsFlushFatCache d = (.noError, d')) :
    ∃ dev io, d' = { d with device := dev, ioCount := io, fatCacheDirty := false } ∧ d'.InSync ∧
      ∀ o, o / d.vol.sectorSize < d.vol.fatSize → fatByte d' o = fatByte d o := by
  unfold mfsFlushFatCache at hf
  cases hdirty : d.fatCacheDirty with
  | false =>
    have hd : d = d' := by
      rw [hdirty] at hf
      simpa using hf
    subst hd
    refine ⟨d.device, d.ioCount, ?_, h, fun o _ => rfl⟩
    rw [← hdirty]
  | true =>
    obtain ⟨hro, hin⟩ := h.dirty hdirty
    simp only [hro, hdirty, if_true, Bool.false_eq_true, if_false] at hf
    obtain ⟨d₁, h1, h2⟩ := ite_noError
      (fun d₁ => (.noError, { d₁ with fatCacheDirty := false })) hf
    obtain ⟨dev, io, rfl, hdev⟩ := flushFatCopies_noError _ h1
    have hd' := (congrArg Prod.snd h2).symm
    simp only at hd'
    have hcopies := h.vol.copies
    -- the window on the device, sector by sector
    have hwin : ∀ k < d.vol.fatCacheSize, ∀ o < d.vol.sectorSize,
        dev (d.vol.fatStartSector + d.fatCacheStart + k) o =
          d.fatCache (d.vol.sectorSize * k + o) := by
      intro k hk o ho
      rw [hdev _ (by omega) o ho, if_pos (by omega)]
      congr 2
      · congr 1
        omega
    refine ⟨dev, io, hd', ?_, ?_⟩
    · subst hd'
      exact ⟨h.vol, h.window, fun hne => absurd hne (by simp), fun _ _ k hk o ho =>
        (hwin k hk o ho).symm⟩
    · intro o ho
      subst hd'
      unfold fatByte
      simp only
      split
      · rfl
      · rw [hdev _ (by omega) _ (Nat.mod_lt _ h.vol.sectorSize_pos), if_neg (by omega)]

theorem readFatSectors_noError {start : ℕ} (n : ℕ) :
    ∀ {i : ℕ} {d d' : Drive}, readFatSectors start n i d = (.noError, d') →
      ∃ cache io, d' = { d with fatCache := cache, ioCount := io } ∧
        ∀ k, ∀ o < d.vol.sectorSize, cache (d.vol.sectorSize * k + o) =
          if i ≤ k ∧ k < i + n then d.device (d.vol.fatStartSector + start + k) o
          else d.fatCache (d.vol.sectorSize * k + o) := by
  induction n with
  | zero =>
    intro i d d' h
    have hd : d = d' := congrArg Prod.snd h
    subst hd
    refine ⟨d.fatCache, d.ioCount, rfl, fun k o _ => ?_⟩
    rw [if_neg (by omega)]
  | succ n ih =>
    intro i d d' h
    obtain ⟨d₁, h1, h2⟩ := ite_noError (readFatSectors start n (i + 1)) h
    have hd1 := mfsReadDeviceSector_noError h1
    subst hd1
    obtain ⟨cache, io, rfl, hcache⟩ := ih h2
    refine ⟨cache, io, rfl, fun k o ho => ?_⟩
    have hk := hcache k o ho
    simp only at hk
    rw [hk]
    by_cases hlt : i + 1 ≤ k ∧ k < i + 1 + n
    · rw [if_pos hlt, if_pos (by omega)]
    · rw [if_neg hlt, storeBytes]
      by_cases heq : k = i
      · subst heq
        rw [if_pos (by omega), if_pos (by omega), Nat.add_sub_cancel_left]
      · -- another sector of the cache: its bytes lie outside the stored ones
        have hother : d.vol.sectorSize * k + d.vol.sectorSize ≤ d.vol.sectorSize * i ∨
            d.vol.sectorSize * i + d.vol.sectorSize ≤ d.vol.sectorSize * k := by
          rcases Nat.lt_or_gt_of_ne heq with hki | hki
          · exact Or.inl (Nat.mul_le_mul_left d.vol.sectorSize hki)
          · exact Or.inr (Nat.mul_le_mul_left d.vol.sectorSize hki)
        rw [if_neg (by omega), if_neg (by omega)]

/-- The entry at `offset` needs the sectors from its own to `neededEndSector`. -/
def Covers (d : Drive) (offset : ℕ) : Prop :=
  d.fatCacheStart ≤ offset / d.vol.sectorSize ∧
    neededEndSector d.vol offset < d.fatCacheStart + d.vol.fatCacheSize

theorem div_le_neededEndSector (v : Volume) (offset : ℕ) :
    offset / v.sectorSize ≤ neededEndSector v offset := by
  unfold neededEndSector
  split
  · exact Nat.div_le_div_right (Nat.le_succ _)
  · exact le_refl _

theorem neededEndSector_le (v : Volume) (h : 0 < v.sectorSize) (offset : ℕ) :
    neededEndSector v offset ≤ offset / v.sectorSize + 1 := by
  unfold neededEndSector
  split
  · calc (offset + 1) / v.sectorSize ≤ (offset + v.sectorSize) / v.sectorSize :=
          Nat.div_le_div_right (by omega)
      _ = offset / v.sectorSize + 1 := Nat.add_div_right _ h
  · omega

/-- A successful `mfsReadFat` brings the entry into the window and leaves the
table as it was. -/
theorem mfsReadFat_noError {d d' : Drive} {offset : ℕ} (h : d.InSync)
    (hend : neededEndSector d.vol offset < d.vol.fatSize)
    (hr : mfsReadFat d offset = (.noError, d')) :
    d'.vol = d.vol ∧ d'.InSync ∧ Covers d' offset ∧
      d'.fatCacheStart + d'.vol.fatCacheSize ≤ d'.vol.fatSize ∧
      ∀ o, o / d.vol.sectorSize < d.vol.fatSize → fatByte d' o = fatByte d o := by
  have hle := div_le_neededEndSector d.vol offset
  have hsize := h.vol.size_lt
  have hpos := h.vol.cache_pos
  have hcle := h.vol.cache_le
  unfold mfsReadFat at hr
  simp only at hr
  split at hr
  · obtain ⟨d₁, h1, hr⟩ := ite_noError
      (readFatWindow (min (offset / d.vol.sectorSize) (d.vol.fatSize - d.vol.fatCacheSize))) hr
    obtain ⟨start, hstart⟩ :
      ∃ start, min (offset / d.vol.sectorSize) (d.vol.fatSize - d.vol.fatCacheSize) = start :=
      ⟨_, rfl⟩
    rw [hstart] at hr
    obtain ⟨d₂, h2, h3⟩ := ite_noError (fun d₂ =>
      (.noError, { d₂ with fatCacheStart := start, fatCacheDirty := false })) hr
    obtain ⟨dev, io, rfl, hsync, hbytes⟩ := mfsFlushFatCache_noError h h1
    obtain ⟨cache, io', rfl, hcache⟩ := readFatSectors_noError _ h2
    have hd' := (congrArg Prod.snd h3).symm
    simp only at hd' hcache
    have hin : start + d.vol.fatCacheSize ≤ d.vol.fatSize := by omega
    have hsync' : d'.InSync := by
      subst hd'
      refine ⟨h.vol, Or.inr hin, ?_, ?_⟩
      · intro hne
        exact absurd hne (by simp)
      · intro _ _ k hk o ho
        have hk' : k < 0 + d.vol.fatCacheSize := (Nat.zero_add _).symm ▸ hk
        simp only
        rw [hcache k o ho, if_pos ⟨Nat.zero_le _, hk'⟩]
    have hclean : d'.fatCacheDirty = false := by rw [hd']
    have hvol : d'.vol = d.vol := by rw [hd']
    refine ⟨hvol, hsync', ?_, ?_, ?_⟩
    · subst hd'
      have hend' := neededEndSector_le d.vol h.vol.sectorSize_pos offset
      have htwo := h.vol.cache_two
      constructor
      · simp only
        omega
      · simp only
        omega
    · subst hd'
      exact hin
    · intro o ho
      rw [← hbytes o ho, hsync'.fatByte_device hclean (by rw [hvol]; exact ho),
        hsync.fatByte_device rfl ho]
      subst hd'
      rfl
  · rename_i hc
    have hd : d = d' := congrArg Prod.snd hr
    subst hd
    have hin : d.fatCacheStart + d.vol.fatCacheSize ≤ d.vol.fatSize := by
      rcases h.window with hs | hs
      · omega
      · exact hs
    refine ⟨rfl, h, ⟨by omega, ?_⟩, hin, fun o _ => rfl⟩
    rw [Nat.mod_eq_of_lt (by omega)] at hc
    omega

/-- An entry that the window covers is read without a transfer. -/
theorem mfsReadFat_of_covers {d : Drive} {offset : ℕ} (h : d.vol.Ok) (hc : Covers d offset)
    (hin : d.fatCacheStart + d.vol.fatCacheSize ≤ d.vol.fatSize) :
    mfsReadFat d offset = (.noError, d) := by
  have hsize := h.size_lt
  have hpos := h.cache_pos
  obtain ⟨hlo, hhi⟩ := hc
  unfold mfsReadFat
  rw [Nat.mod_eq_of_lt (by omega)]
  simp only
  rw [if_neg (by omega)]

end Mqx.Mfs
