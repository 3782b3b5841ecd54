import Mqx.Mfs.File

/-!
# Formatting and mounting a drive

`mfsFormat` chooses the type, the cluster size and the size of the file allocation table
from a table of sector counts, clears the system area, writes a boot sector and mounts the
drive. `mfsMountDriveInternal` knows nothing of these choices: it reads the boot sector
and finds the type again by counting clusters.

The numbers are 32-bit ones. They are written as natural numbers, with the remainder
wherever a sum, difference or product can leave the range.
-/

namespace Mqx.Mfs

/-- The configuration constants `MFSCFG_NUM_OF_FATS`, which is stored in one byte and
must not be zero, and `MFSCFG_FAT_CACHE_SIZE`. -/
structure MfsConfig where
  numOfFats : ℕ
  fatCacheSize : ℕ
  numOfFats_pos : 0 < numOfFats
  numOfFats_lt : numOfFats < 256
  fatCacheSize_pos : 0 < fatCacheSize

/-- `MFS_FORMAT_DATA`. -/
structure FormatData where
  physicalDrive : Byte
  mediaDescriptor : Byte
  bytesPerSector : ℕ
  sectorsPerTrack : ℕ
  numberOfHeads : ℕ
  numberOfSectors : ℕ
  hiddenSectors : ℕ
  reservedSectors : ℕ
  bytesPerSector_lt : bytesPerSector < 2 ^ 16
  numberOfSectors_lt : numberOfSectors < 2 ^ 32
  hiddenSectors_lt : hiddenSectors < 2 ^ 32
  reservedSectors_lt : reservedSectors < 2 ^ 16

/-! ## The boot sector -/

/-- The buffer with the two low bytes of `x` stored at `pos`. -/
def put16 (b : ℕ → Byte) (pos x : ℕ) : ℕ → Byte :=
  Function.update (Function.update b pos (BitVec.ofNat 8 x)) (pos + 1) (BitVec.ofNat 8 (x >>> 8))

def put32 (b : ℕ → Byte) (pos x : ℕ) : ℕ → Byte :=
  put16 (put16 b pos x) (pos + 2) (x >>> 16)

def putBytes (b : ℕ → Byte) (pos : ℕ) (l : List Byte) : ℕ → Byte :=
  storeBytes b pos l.length (fun o => l.getD o 0)

/-- The parts of the BIOS parameter block that mounting uses. -/
structure Bpb where
  sectorSize : ℕ
  sectorsPerCluster : ℕ
  reservedSectors : ℕ
  numberOfFat : ℕ
  rootEntries : ℕ
  megaSectors : ℕ
  sectorsPerFat : ℕ
  fatSize32 : ℕ
  fsVer : ℕ

def readBpb (boot : ℕ → Byte) : Bpb where
  sectorSize := (mqxDtohs boot 11).toNat
  sectorsPerCluster := (boot 13).toNat
  reservedSectors := (mqxDtohs boot 14).toNat
  numberOfFat := (boot 16).toNat
  rootEntries := (mqxDtohs boot 17).toNat
  megaSectors :=
    if mqxDtohs boot 19 ≠ 0 then (mqxDtohs boot 19).toNat else (mqxDtohl boot 32).toNat
  sectorsPerFat := (mqxDtohs boot 22).toNat
  fatSize32 := (mqxDtohl boot 36).toNat
  fsVer := (mqxDtohs boot 42).toNat

/-! ## Mounting -/

/-- The bytes of `MFS_DIR_ENTRY`. -/
def dirEntrySize : ℕ := 32

namespace Bpb

variable (p : Bpb)

def rootDirSectors : ℕ := (p.rootEntries * dirEntrySize + (p.sectorSize - 1)) / p.sectorSize

def fatSize : ℕ := if p.sectorsPerFat = 0 then p.fatSize32 else p.sectorsPerFat

def dataSectors : ℕ :=
  (p.megaSectors + (2 ^ 32 -
    (p.reservedSectors + p.numberOfFat * p.fatSize + p.rootDirSectors) % 2 ^ 32)) % 2 ^ 32

def clusterCount : ℕ := p.dataSectors / p.sectorsPerCluster

def fatType : FatType :=
  if p.clusterCount < 4085 then .fat12
  else if p.clusterCount < 65525 then .fat16
  else .fat32

/-- `BPB32.FAT_SIZE` or `BPB.SECTORS_PER_FAT`, as the type says. -/
def tableSize : ℕ := if p.fatType = .fat32 then p.fatSize32 else p.sectorsPerFat

def dataStartSector : ℕ :=
  if p.fatType = .fat32 then (p.reservedSectors + p.fatSize32 * p.numberOfFat) % 2 ^ 32
  else (p.reservedSectors + p.sectorsPerFat * p.numberOfFat +
    p.rootEntries / (p.sectorSize / dirEntrySize)) % 2 ^ 32

def lastCluster : ℕ :=
  ((p.megaSectors + (2 ^ 32 - p.dataStartSector)) % 2 ^ 32 / p.sectorsPerCluster + 1) % 2 ^ 32

/-- The volume as mounting sets it up, before the FAT cache is there. -/
def volume (old : Volume) : Volume where
  fatType := p.fatType
  sectorSize := p.sectorSize
  megaSectors := p.megaSectors
  numberOfFat := p.numberOfFat
  fatSize := p.tableSize
  fatStartSector := p.reservedSectors
  lastCluster := p.lastCluster
  fatCacheSize := old.fatCacheSize
  readOnly := old.readOnly

end Bpb

def fsinfoSector : ℕ := 1
def bkbootSector : ℕ := 6

def fsiLeadsig : ℕ := 0x41615252
def fsiStructsig : ℕ := 0x61417272
def fsiTrailsig : ℕ := 0xAA550000

/-- The file system information with both counts unknown. -/
def putFsinfo (b : ℕ → Byte) : ℕ → Byte :=
  put32 (put32 (put32 (put32 (put32 b 0 fsiLeadsig) 484 fsiStructsig) 488 fsiUnknown) 492
    fsiUnknown) 508 fsiTrailsig

def isFsinfo (b : ℕ → Byte) : Prop :=
  (mqxDtohl b 0).toNat = fsiLeadsig ∧ (mqxDtohl b 484).toNat = fsiStructsig ∧
    (mqxDtohl b 508).toNat = fsiTrailsig

instance (b : ℕ → Byte) : Decidable (isFsinfo b) :=
  inferInstanceAs (Decidable (_ ∧ _ ∧ _))

def takeFreeCount (b : ℕ → Byte) (d : Drive) : Drive :=
  if isFsinfo b then { d with freeCount := (mqxDtohl b 488).toNat } else d

/-- The free count is taken over from the information sector and marked unknown there. -/
def mountFsinfo (d : Drive) : MfsError × Drive :=
  let r := mfsReadDeviceSectors d fsinfoSector 1 (fun _ => 0) 0
  if d.vol.readOnly = false ∧ r.1 = .noError then
    mfsWriteDeviceSectors (takeFreeCount r.2.1 r.2.2) fsinfoSector 1 (putFsinfo r.2.1)
  else (r.1, takeFreeCount r.2.1 r.2.2)

/-- The checks and transfers that only a FAT32 drive has. -/
def mountFat32 (p : Bpb) (d : Drive) : MfsError × Drive :=
  if p.fatType = .fat32 then
    if p.fsVer > 0 then (.unknownFsVersion, d) else mountFsinfo d
  else (.noError, d)

/-- `FAT_CACHE_SIZE` for a table of `size` sectors. -/
def MfsConfig.cacheSize (cfg : MfsConfig) (size : ℕ) : ℕ :=
  if size > cfg.fatCacheSize then (if cfg.fatCacheSize < 2 then 2 else cfg.fatCacheSize)
  else size

/-- `MFS_Mount_drive_internal` on the boot sector in the directory buffer. -/
def mfsMountDriveInternal (cfg : MfsConfig) (boot : ℕ → Byte) (d : Drive) : MfsError × Drive :=
  if boot 0 ≠ 0xEB#8 ∧ boot 0 ≠ 0xE9#8 then (.notADosDisk, d)
  else
    let p := readBpb boot
    let r := mountFat32 p { d with vol := p.volume d.vol, freeCount := fsiUnknown }
    if r.1 = .noError then
      (.noError, { r.2 with
        vol := { r.2.vol with fatCacheSize := cfg.cacheSize p.tableSize }
        fatCacheStart := 2 ^ 32 - 1
        fatCacheDirty := false })
    else r

/-! ## Formatting -/

structure FormatRow where
  sectorBound : ℕ
  fatType : FatType
  rootdirSize : ℕ
  clusterSize : ℕ

/-- `format_table` but for its last row, which is for any larger medium. -/
def formatTable : List FormatRow :=
  [⟨2048, .fat12, 7, 1⟩, ⟨4096, .fat12, 14, 1⟩, ⟨8192, .fat12, 32, 2⟩, ⟨16384, .fat12, 32, 4⟩,
    ⟨32640, .fat12, 32, 8⟩, ⟨262080, .fat16, 32, 4⟩, ⟨524160, .fat16, 32, 8⟩,
    ⟨1048320, .fat16, 32, 16⟩, ⟨2096640, .fat16, 32, 32⟩, ⟨16777216, .fat32, 0, 8⟩,
    ⟨33554432, .fat32, 0, 16⟩, ⟨67108864, .fat32, 0, 32⟩]

def largestRow : FormatRow := ⟨0, .fat32, 0, 64⟩

/-- The first row whose bound is above the sector count. -/
def findRow (sectors : ℕ) : List FormatRow → FormatRow
  | [] => largestRow
  | r :: rest => if sectors < r.sectorBound then r else findRow sectors rest

def formatRow (sectors : ℕ) : FormatRow := findRow sectors formatTable

/-- The sizes `MFS_Format` computes. -/
structure FormatPlan where
  row : FormatRow
  reservedSectors : ℕ
  fatSize : ℕ

namespace FormatData

variable (cfg : MfsConfig) (p : FormatData)

def row : FormatRow := formatRow (p.numberOfSectors - p.reservedSectors)

def reserved : ℕ :=
  if p.reservedSectors = 0 then (if p.row.fatType = .fat32 then 32 else 1)
  else p.reservedSectors

def availableSectors : ℕ := (p.numberOfSectors + (2 ^ 32 - p.reserved)) % 2 ^ 32

/-- The size of one copy of the table, by the formula of each type. -/
def fatSize : ℕ :=
  match p.row.fatType with
  | .fat12 => 1 + (3 * (p.availableSectors - p.row.rootdirSize) - 1) /
      (2 * p.bytesPerSector * p.row.clusterSize + 6)
  | .fat16 => 1 + (p.availableSectors - p.row.rootdirSize - 1) /
      (p.bytesPerSector * p.row.clusterSize / 2 + 2)
  | .fat32 =>
    let temp := (256 * p.row.clusterSize + cfg.numOfFats) / 2
    (p.availableSectors + temp - 1) % 2 ^ 32 / temp

def plan : FormatPlan := ⟨p.row, p.reserved, p.fatSize cfg⟩

end FormatData

namespace FormatPlan

variable (cfg : MfsConfig) (x : FormatPlan)

def sysSize : ℕ := (x.row.rootdirSize + cfg.numOfFats * x.fatSize + x.reservedSectors) % 2 ^ 32

end FormatPlan

/-- The text `NO NAME` with the type behind it. -/
def volumeLabel (t : FatType) : List Byte :=
  let digits : List Byte := match t with
    | .fat12 => [0x31, 0x32]
    | .fat16 => [0x31, 0x36]
    | .fat32 => [0x33, 0x32]
  [0x4E, 0x4F, 0x20, 0x4E, 0x41, 0x4D, 0x45, 0x20, 0x20, 0x20, 0x20, 0x46, 0x41, 0x54] ++
    digits ++ [0x20, 0x20, 0x20]

/-- The first sector of a copy of the table. -/
def fatHead (p : FormatData) (t : FatType) : ℕ → Byte :=
  putBytes (fun _ => 0) 0 (match t with
    | .fat12 => [p.mediaDescriptor, 0xFF, 0xFF]
    | .fat16 => [p.mediaDescriptor, 0xFF, 0xFF, 0xFF]
    | .fat32 => [p.mediaDescriptor, 0xFF, 0xFF, 0x0F, 0xFF, 0xFF, 0xFF, 0x0F, 0xFF, 0xFF, 0xFF,
        0x0F])

/-- The bytes of the parameter block all types have. -/
def bootCommon (cfg : MfsConfig) (p : FormatData) (x : FormatPlan) : ℕ → Byte :=
  let b₀ := putBytes (fun _ => 0) 0 [0xEB, 0x3C, 0x90]
  let b₁ := put16 b₀ 11 p.bytesPerSector
  let b₂ := Function.update b₁ 13 (BitVec.ofNat 8 x.row.clusterSize)
  let b₃ := put16 b₂ 14 x.reservedSectors
  let b₄ := Function.update b₃ 16 (BitVec.ofNat 8 cfg.numOfFats)
  let b₅ := put16 b₄ 17 (x.row.rootdirSize * (p.bytesPerSector >>> 5))
  let b₆ :=
    if (p.numberOfSectors + p.hiddenSectors) % 2 ^ 32 ≤ 0xFFFF then put16 b₅ 19 p.numberOfSectors
    else put32 b₅ 32 p.numberOfSectors
  let b₇ := Function.update b₆ 21 p.mediaDescriptor
  put32 (put16 (put16 b₇ 24 p.sectorsPerTrack) 26 p.numberOfHeads) 28 p.hiddenSectors

/-- The boot sector, without the OEM name, the boot code and the signature at the end. -/
def bootSector (cfg : MfsConfig) (p : FormatData) (x : FormatPlan) : ℕ → Byte :=
  let b := bootCommon cfg p x
  if x.row.fatType = .fat32 then
    -- the version and the flags stay zero; the root directory starts in cluster 2
    let b₁ := put32 (put32 b 36 x.fatSize) 44 2
    let b₂ := put16 (put16 b₁ 48 fsinfoSector) 50 bkbootSector
    let b₃ := Function.update (Function.update b₂ 64 p.physicalDrive) 66 0x29
    putBytes b₃ 71 (volumeLabel .fat32)
  else
    let b₁ := put16 b 22 x.fatSize
    let b₂ := Function.update (Function.update b₁ 36 p.physicalDrive) 38 0x29
    putBytes b₂ 43 (volumeLabel x.row.fatType)

/-- A transfer that stops the formatting when it fails. -/
def checked (r : MfsError × Drive) : Except (MfsError × Drive) Drive :=
  if r.1 = .noError then .ok r.2 else .error r

/-- `n` sectors from `i` on, all written from one buffer. -/
def writeSectors (buffer : ℕ → Byte) : ℕ → ℕ → Drive → Except (MfsError × Drive) Drive
  | 0, _, d => .ok d
  | n + 1, i, d => do
    let d₁ ← checked (mfsWriteDeviceSectors d (i % 2 ^ 32) 1 buffer)
    writeSectors buffer n (i + 1) d₁

/-- The first sector of the copies `n - 1, ..., 0` of the table. -/
def writeFatHeads (buffer : ℕ → Byte) (x : FormatPlan) :
    ℕ → Drive → Except (MfsError × Drive) Drive
  | 0, d => .ok d
  | n + 1, d => do
    let d₁ ← checked (mfsWriteDeviceSectors d ((x.reservedSectors + n * x.fatSize) % 2 ^ 32) 1
      buffer)
    writeFatHeads buffer x n d₁

/-- The boot sector is written. On a FAT32 drive its copy and the information sector are
too, from the same buffer, and the boot sector is read back. -/
def writeBoot (cfg : MfsConfig) (p : FormatData) (x : FormatPlan) (d : Drive) :
    Except (MfsError × Drive) ((ℕ → Byte) × Drive) := do
  let boot := bootSector cfg p x
  let d₁ ← checked (mfsWriteDeviceSectors d 0 1 boot)
  if x.row.fatType = .fat32 then
    let d₂ ← checked (mfsWriteDeviceSectors d₁ bkbootSector 1 boot)
    let d₃ ← checked (mfsWriteDeviceSectors d₂ fsinfoSector 1 (putFsinfo boot))
    let r := mfsReadDeviceSectors d₃ 0 1 (putFsinfo boot) 0
    let d₄ ← checked (r.1, r.2.2)
    return (r.2.1, d₄)
  else return (boot, d₁)

/-- The root directory of a FAT32 drive is a cluster, cleared on its own. -/
def clearRootCluster (cfg : MfsConfig) (x : FormatPlan) (d : Drive) :
    Except (MfsError × Drive) Drive :=
  if x.row.fatType = .fat32 then writeSectors (fun _ => 0) x.row.clusterSize (x.sysSize cfg) d
  else .ok d

/-- The device transfers of `MFS_Format`. -/
def formatSectors (cfg : MfsConfig) (p : FormatData) (x : FormatPlan) (d : Drive) :
    Except (MfsError × Drive) ((ℕ → Byte) × Drive) := do
  let d₁ ← writeSectors (fun _ => 0) (x.sysSize cfg - (x.reservedSectors + 1))
    (x.reservedSectors + 1) d
  let d₂ ← clearRootCluster cfg x d₁
  let d₃ ← writeFatHeads (fatHead p x.row.fatType) x cfg.numOfFats d₂
  writeBoot cfg p x d₃

/-- `MFS_Format` up to the mount step: the boot sector in the buffer and the drive. -/
def formatDrive (cfg : MfsConfig) (p : FormatData) (openFiles : Bool) (d : Drive) :
    Except (MfsError × Drive) ((ℕ → Byte) × Drive) :=
  if d.vol.readOnly then .error (.diskIsWriteProtected, d)
  else if p.numberOfSectors ≤ p.reservedSectors then .error (.invalidParameter, d)
  else if openFiles then .error (.sharingViolation, d)
  else if p.row.fatType = .fat32 ∧ p.reserved < 32 then .error (.invalidParameter, d)
  else if p.availableSectors ≤ p.row.rootdirSize then .error (.invalidParameter, d)
  else
    formatSectors cfg p (p.plan cfg)
      { d with vol := { d.vol with megaSectors := p.numberOfSectors } }

/-- `MFS_Format`, without the count of free clusters at the end. What mounting returns is
not looked at. -/
def mfsFormat (cfg : MfsConfig) (p : FormatData) (openFiles : Bool) (d : Drive) :
    MfsError × Drive :=
  match formatDrive cfg p openFiles d with
  | .error e => e
  | .ok (boot, d₁) => (.noError, (mfsMountDriveInternal cfg boot d₁).2)

end Mqx.Mfs
