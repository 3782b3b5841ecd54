import Mqx.Mfs.Fat

/-!
# Files

`MFS_Write` on one read-write handle, and the parts of `MFS_Read`. The first
and the last, partial sector of a transfer go through the one data sector that the drive
keeps in memory; the whole sectors in between go straight to the device when the buffer
is aligned, and through the data sector when it is not.

Sector and cluster sizes are powers of two, so the masks and shifts of the source are
remainders and quotients. The directory entry is the part of the handle that it is copied
to; writing it back to its directory sector is left out.
-/

namespace Mqx.Mfs

inductive CachePolicy where
  | writeThrough
  | mixedMode
  | writeBack
  deriving DecidableEq, Repr

/-- What mounting computes for the file functions. -/
structure Layout where
  sectorsPerCluster : ℕ
  dataStartSector : ℕ
  alignmentMask : ℕ
  writeCachePolicy : CachePolicy
  fatCachePolicy : CachePolicy

/-- A drive and an open file. `full` is not in the source: it is set when a search for a
free cluster has failed. -/
structure FileState where
  d : Drive
  layout : Layout
  nextFreeCluster : ℕ
  dataSectorNumber : ℕ
  dataSectorDirty : Bool
  dataSector : ℕ → Byte
  location : ℕ
  savedPosition : ℕ
  currentCluster : ℕ
  previousCluster : ℕ
  firstCluster : ℕ
  fileSize : ℕ
  full : Bool

/-- `CLUSTER_EOF` as a cluster number of a handle. -/
def eofCluster : ℕ := 0x0FFFFFFF

/-! ## Transfers of data sectors -/

/-- `MFS_Read_device_sectors`, into `buffer` from `pos` on. A transfer succeeds or fails
as a whole. -/
def mfsReadDeviceSectors (d : Drive) (sectorNumber sectorCount : ℕ) (buffer : ℕ → Byte)
    (pos : ℕ) : MfsError × (ℕ → Byte) × Drive :=
  if sectorNumber + sectorCount - 1 > d.vol.megaSectors then (.sectorNotFound, buffer, d)
  else
    match d.ioFault d.ioCount with
    | none =>
      (.noError, storeBytes buffer pos (sectorCount * d.vol.sectorSize) (fun o =>
        d.device (sectorNumber + o / d.vol.sectorSize) (o % d.vol.sectorSize)),
        { d with ioCount := d.ioCount + 1 })
    | some junk =>
      (.readFault, storeBytes buffer pos (sectorCount * d.vol.sectorSize) junk,
        { d with ioCount := d.ioCount + 1 })

/-- The device after `sectorCount` sectors from `sectorNumber` on are written from
`buffer`. -/
def storeSectors (d : Drive) (sectorNumber sectorCount : ℕ) (buffer : ℕ → Byte) :
    ℕ → ℕ → Byte := fun n o =>
  if sectorNumber ≤ n ∧ n < sectorNumber + sectorCount ∧ o < d.vol.sectorSize then
    buffer ((n - sectorNumber) * d.vol.sectorSize + o)
  else d.device n o

/-- `MFS_Write_device_sectors`, without the optional reading back. -/
def mfsWriteDeviceSectors (d : Drive) (sectorNumber sectorCount : ℕ) (buffer : ℕ → Byte) :
    MfsError × Drive :=
  if d.vol.readOnly then (.diskIsWriteProtected, d)
  else if sectorNumber > d.vol.megaSectors then (.sectorNotFound, d)
  else
    match d.ioFault d.ioCount with
    | none =>
      (.noError, { d with
        device := storeSectors d sectorNumber sectorCount buffer
        ioCount := d.ioCount + 1 })
    | some junk =>
      (.writeFault, { d with
        device := storeSectors d sectorNumber sectorCount junk
        ioCount := d.ioCount + 1 })

namespace FileState

variable (s : FileState)

abbrev sectorSize : ℕ := s.d.vol.sectorSize

/-- `CLUSTER_SIZE_BYTES`. -/
def clusterSize : ℕ := s.layout.sectorsPerCluster * s.sectorSize

def clusterToSector (cluster : ℕ) : ℕ :=
  (cluster - clusterMinGood) * s.layout.sectorsPerCluster + s.layout.dataStartSector

/-! ## The data sector -/

def mfsFlushDataSectorBuffer : MfsError × FileState :=
  if s.d.vol.readOnly then (.noError, s)
  else if s.dataSectorDirty then
    let r := mfsWriteDeviceSectors s.d s.dataSectorNumber 1 s.dataSector
    if r.1 = .noError then (.noError, { s with d := r.2, dataSectorDirty := false })
    else (r.1, { s with d := r.2 })
  else (.noError, s)

def mfsInvalidateDataSector : FileState :=
  if s.d.vol.readOnly then s
  else { s with dataSectorNumber := 2 ^ 32 - 1, dataSectorDirty := false }

def mfsReadDataSector (sectorNumber : ℕ) (hwRead : Bool) : MfsError × FileState :=
  if sectorNumber ≠ s.dataSectorNumber then
    let s₁ := s.mfsFlushDataSectorBuffer.2.mfsInvalidateDataSector
    if hwRead then
      let r := mfsReadDeviceSectors s₁.d sectorNumber 1 s₁.dataSector 0
      if r.1 = .noError then
        (.noError, { s₁ with d := r.2.2, dataSector := r.2.1, dataSectorNumber := sectorNumber })
      else (r.1, { s₁ with d := r.2.2, dataSector := r.2.1 })
    else (.noError, { s₁ with dataSectorNumber := sectorNumber })
  else (.noError, s)

/-- Bytes are copied to the data sector, which is flushed at once if caches are written
through. -/
def fillDataSector (pos size : ℕ) (src : ℕ → Byte) : MfsError × FileState :=
  let s₁ := { s with dataSector := storeBytes s.dataSector pos size src, dataSectorDirty := true }
  if s.layout.writeCachePolicy = .writeThrough then s₁.mfsFlushDataSectorBuffer
  else (.noError, s₁)

/-- `MFS_unlock`, called with `flush_if_mixed_mode` false. -/
def mfsUnlock : MfsError × FileState :=
  let r := if s.layout.writeCachePolicy = .writeThrough then s.mfsFlushDataSectorBuffer
    else (.noError, s)
  if r.1 = .noError ∧ s.layout.fatCachePolicy = .writeThrough then
    let f := mfsFlushFatCache r.2.d
    (f.1, { r.2 with d := f.2 })
  else r

/-! ## Clusters -/

/-- How a search for a free cluster ends. -/
inductive Search where
  | found (cluster : ℕ)
  | failed
  | exhausted
  deriving DecidableEq, Repr

end FileState

/-- A loop of `MFS_Find_unused_cluster_from` over `n` clusters from `cluster` on. -/
def searchUnused : ℕ → ℕ → Drive → FileState.Search × Drive
  | 0, _, d => (.exhausted, d)
  | n + 1, cluster, d =>
    let r := mfsGetClusterFromFat d cluster
    if r.1 ≠ .noError then (.failed, r.2.2)
    else if r.2.1 = clusterUnused then (.found cluster, r.2.2)
    else searchUnused n (cluster + 1) r.2.2

/-- The loop of `MFS_Extend_chain` that looks for the end of the chain. A chain without a
cycle has fewer than `LAST_CLUSTER` members. -/
def chainEnd : ℕ → ℕ → Drive → MfsError × ℕ × Drive
  | 0, cluster, d => (.lostChain, cluster, d)
  | n + 1, cluster, d =>
    let r := mfsGetClusterFromFat d cluster
    if r.1 ≠ .noError then (r.1, cluster, r.2.2)
    else if r.2.1 = clusterEof then (.noError, cluster, r.2.2)
    else if r.2.1.toNat > d.vol.lastCluster ∨ r.2.1.toNat < clusterMinGood then
      (.lostChain, cluster, r.2.2)
    else chainEnd n r.2.1.toNat r.2.2

namespace FileState

variable (s : FileState)

/-- `none` is `CLUSTER_INVALID`. -/
def mfsFindUnusedClusterFrom (cluster : ℕ) : Option ℕ × FileState :=
  if s.d.vol.readOnly then (none, { s with full := true })
  else
    let r := searchUnused (s.d.vol.lastCluster + 1 - cluster) cluster s.d
    match r.1 with
    | .found c => (some c, { s with d := r.2, nextFreeCluster := c })
    | .failed => (none, { s with d := r.2, full := true })
    | .exhausted =>
      let r' := searchUnused (cluster - clusterMinGood) clusterMinGood r.2
      match r'.1 with
      | .found c => (some c, { s with d := r'.2, nextFreeCluster := c })
      | _ => (none, { s with d := r'.2, full := true })

/-- `MFS_Add_cluster_to_chain`, that is `MFS_Extend_chain` by one cluster; the new cluster
is stored in `CURRENT_CLUSTER`. -/
def mfsAddClusterToChain (cluster : ℕ) : MfsError × FileState :=
  if s.d.vol.readOnly then (.diskIsWriteProtected, s)
  else if cluster < clusterMinGood ∨ cluster > s.d.vol.lastCluster then
    (.invalidClusterNumber, s)
  else
    let e := chainEnd s.d.vol.lastCluster cluster s.d
    if e.1 ≠ .noError then (e.1, { s with d := e.2.2 })
    else
      match ({ s with d := e.2.2 } : FileState).mfsFindUnusedClusterFrom (e.2.1 + 1) with
      | (none, s₁) => (.diskFull, s₁)
      | (some c, s₁) =>
        let p := mfsPutFat s₁.d e.2.1 (BitVec.ofNat 32 c)
        if p.1 ≠ .noError then (p.1, { s₁ with d := p.2 })
        else
          let q := mfsPutFat p.2 c clusterEof
          (q.1, { s₁ with d := q.2, currentCluster := c })

/-- Returns the error, `sector_index` and `sector_number`. -/
def mfsNextDataSector (sectorIndex sectorNumber : ℕ) : MfsError × ℕ × ℕ × FileState :=
  if s.currentCluster ≠ eofCluster then
    if sectorIndex + 1 ≥ s.layout.sectorsPerCluster then
      let r := mfsGetClusterFromFat s.d s.currentCluster
      let s₁ := { s with d := r.2.2 }
      if r.1 = .noError then
        let s₂ := { s₁ with
          previousCluster := s.currentCluster
          currentCluster := r.2.1.toNat }
        if r.2.1 = clusterEof then (.eof, 0, sectorNumber, s₂)
        else (.noError, 0, s₂.clusterToSector s₂.currentCluster, s₂)
      else (r.1, sectorIndex + 1, sectorNumber, s₁)
    else
      (.noError, sectorIndex + 1, s.clusterToSector s.currentCluster + (sectorIndex + 1), s)
  else (.eof, sectorIndex, sectorNumber, s)

end FileState

/-! ## Writing -/

/-- The variables of a transfer. `count` is `bytes_written` or `bytes_read`. -/
structure Transfer where
  s : FileState
  sectorIndex : ℕ
  sectorNumber : ℕ
  sectorOffset : ℕ
  zeros : ℕ
  count : ℕ
  error : MfsError

namespace Transfer

variable (x : Transfer)

/-- To the next sector. If something is left to write, a cluster is added at the end of
the chain, and only then an error counts. -/
def advance (more : Bool) : Transfer :=
  let r := x.s.mfsNextDataSector x.sectorIndex x.sectorNumber
  if more then
    if r.1 = .eof then
      let a := r.2.2.2.mfsAddClusterToChain r.2.2.2.previousCluster
      if a.1 = .noError then
        { x with
          s := a.2
          sectorIndex := 0
          sectorNumber := a.2.clusterToSector a.2.currentCluster
          error := .noError }
      else { x with s := a.2, sectorIndex := r.2.1, sectorNumber := r.2.2.1, error := a.1 }
    else { x with s := r.2.2.2, sectorIndex := r.2.1, sectorNumber := r.2.2.1, error := r.1 }
  else { x with s := r.2.2.2, sectorIndex := r.2.1, sectorNumber := r.2.2.1 }

/-- Bytes `src` into the current sector from `pos` on. -/
def fill (hwRead : Bool) (pos size : ℕ) (src : ℕ → Byte) : Transfer :=
  let r := x.s.mfsReadDataSector x.sectorNumber hwRead
  if r.1 ≠ .noError then { x with s := r.2, error := r.1 }
  else
    let w := r.2.fillDataSector pos size src
    { x with s := w.2, error := w.1 }

/-- The loop that fills the gap behind the end of the file. It does not look at the error
of the last step to the next sector. -/
def writeZeros (numZeros : ℕ) : ℕ → Transfer → Transfer
  | 0, x => x
  | n + 1, x =>
    if x.zeros < numZeros then
      let size := min (numZeros - x.zeros) (x.s.sectorSize - x.sectorOffset)
      let y := x.fill (decide (x.sectorOffset ≠ 0)) x.sectorOffset size (fun _ => 0)
      if y.error ≠ .noError then y
      else
        let z := { y with zeros := x.zeros + size, sectorOffset := x.sectorOffset + size }
        writeZeros numZeros n
          (if z.sectorOffset ≥ z.s.sectorSize then { z.advance true with sectorOffset := 0 } else z)
    else x

/-- The partial sector at the front. -/
def writeHead (numBytes : ℕ) (buffer : ℕ → Byte) : Transfer :=
  if x.sectorOffset ≠ 0 ∧ x.error = .noError then
    let size := min numBytes (x.s.sectorSize - x.sectorOffset)
    let y := x.fill true x.sectorOffset size buffer
    if y.error ≠ .noError then y
    else
      let z := { y with count := size }
      if z.sectorOffset + size ≥ z.s.sectorSize then z.advance (decide (size < numBytes)) else z
  else x

/-- The loop over whole sectors without a copy. -/
def writeDirect (numBytes : ℕ) (buffer : ℕ → Byte) : ℕ → ℕ → Transfer → Transfer
  | 0, _, x => x
  | n + 1, wholeSectors, x =>
    if wholeSectors > 0 ∧ x.error = .noError then
      let contSectors := min (x.s.layout.sectorsPerCluster - x.sectorIndex) wholeSectors
      let w := mfsWriteDeviceSectors x.s.d x.sectorNumber contSectors
        (fun o => buffer (x.count + o))
      let y := { x with s := { x.s with d := w.2 }, error := w.1 }
      if w.1 ≠ .noError then y
      else
        let z := { y with
          count := x.count + contSectors * x.s.sectorSize
          sectorIndex := x.sectorIndex + (contSectors - 1) }
        writeDirect numBytes buffer n (wholeSectors - contSectors)
          (z.advance (decide (z.count < numBytes)))
    else x

/-- The loop over whole sectors through the data sector. -/
def writeCopied (numBytes : ℕ) (buffer : ℕ → Byte) : ℕ → Transfer → Transfer
  | 0, x => x
  | n + 1, x =>
    if x.error = .noError then
      let y := x.fill false 0 x.s.sectorSize (fun o => buffer (x.count + o))
      if y.error ≠ .noError then y
      else
        let z := { y with count := x.count + x.s.sectorSize }
        writeCopied numBytes buffer n (z.advance (decide (z.count < numBytes)))
    else x

/-- `(buffer_address + count) & ALIGNMENT_MASK` is zero. -/
def Aligned (address : ℕ) : Prop :=
  (address + x.count) % 2 ^ 32 &&& x.s.layout.alignmentMask = 0

instance (address : ℕ) : Decidable (x.Aligned address) :=
  inferInstanceAs (Decidable (_ = _))

def writeWhole (numBytes address : ℕ) (buffer : ℕ → Byte) : Transfer :=
  let wholeSectors := (numBytes - x.count) / x.s.sectorSize
  if x.Aligned address then x.writeDirect numBytes buffer wholeSectors wholeSectors
  else x.writeCopied numBytes buffer wholeSectors

/-- What is left for the last sector. -/
def writeTail (numBytes : ℕ) (buffer : ℕ → Byte) : Transfer :=
  if x.count < numBytes ∧ x.error = .noError then
    let hwRead := decide ((x.s.location + numBytes) % 2 ^ 32 < x.s.fileSize)
    let r := x.s.mfsReadDataSector x.sectorNumber hwRead
    if r.1 ≠ .noError then { x with s := r.2, error := r.1 }
    else
      let w := r.2.fillDataSector 0 (numBytes - x.count) (fun o => buffer (x.count + o))
      { x with s := w.2, error := w.1, count := numBytes }
  else x

end Transfer

namespace FileState

variable (s : FileState)

/-- The current cluster of a write; the first write to a file adds one. -/
def writeSetup : MfsError × FileState :=
  if s.currentCluster = 0 then
    let s₁ := { s with previousCluster := 0, currentCluster := s.firstCluster }
    if s₁.currentCluster = 0 then
      match s₁.mfsFindUnusedClusterFrom s₁.nextFreeCluster with
      | (none, s₂) => (.diskFull, s₂)
      | (some c, s₂) =>
        let p := mfsPutFat s₂.d c clusterEof
        let s₃ := { s₂ with d := p.2, firstCluster := c }
        if p.1 = .noError then (.noError, { s₃ with currentCluster := c }) else (p.1, s₃)
    else (.noError, s₁)
  else if s.currentCluster = eofCluster then s.mfsAddClusterToChain s.previousCluster
  else if s.currentCluster > s.d.vol.lastCluster then (.diskFull, s)
  else (.noError, s)

/-- A transfer at `location`. -/
def transfer (location : ℕ) : Transfer where
  s := s
  sectorIndex := location % s.clusterSize / s.sectorSize
  sectorNumber := s.clusterToSector s.currentCluster + location % s.clusterSize / s.sectorSize
  sectorOffset := location % s.sectorSize
  zeros := 0
  count := 0
  error := .noError

/-- The end of `MFS_Write`: the handle gets its new size and positions. -/
def writeFinish (location : ℕ) (x : Transfer) : MfsError × ℕ × FileState :=
  let end_ := (location + (x.zeros + x.count)) % 2 ^ 32
  let s₁ := { x.s with
    savedPosition := end_
    fileSize := if end_ > x.s.fileSize then end_ else x.s.fileSize
    location := (x.s.location + x.count) % 2 ^ 32 }
  let u := s₁.mfsUnlock
  (if x.error = .noError then u.1 else x.error, x.count, u.2)

/-- Returns the error, the number of bytes written and the new state. The address of the
buffer decides about its alignment. -/
def mfsWrite (numBytes address : ℕ) (buffer : ℕ → Byte) : MfsError × ℕ × FileState :=
  if s.d.vol.readOnly then (.diskIsWriteProtected, 0, s)
  else if address = 0 then (.invalidParameter, 0, s)
  else if numBytes = 0 then (.noError, 0, s)
  else
    let r := s.writeSetup
    if r.1 ≠ .noError then (r.1, 0, r.2.mfsUnlock.2)
    else
      let location := min r.2.location r.2.fileSize
      let numZeros := r.2.location - location
      let x := Transfer.writeZeros numZeros numZeros (r.2.transfer location)
      let x := x.writeHead numBytes buffer
      let x := x.writeWhole numBytes address buffer
      writeFinish location (x.writeTail numBytes buffer)

end FileState

/-! ## Reading -/

namespace Transfer

variable (x : Transfer)

/-- To the next sector; an error counts only if something is left to read. -/
def next (more : Bool) : Transfer :=
  let r := x.s.mfsNextDataSector x.sectorIndex x.sectorNumber
  { x with
    s := r.2.2.2
    sectorIndex := r.2.1
    sectorNumber := r.2.2.1
    error := if more then r.1 else x.error }

/-- `size` bytes of the current sector from `pos` on, to the buffer. -/
def fetch (pos size : ℕ) (buffer : ℕ → Byte) : Transfer × (ℕ → Byte) :=
  let r := x.s.mfsReadDataSector x.sectorNumber true
  if r.1 ≠ .noError then ({ x with s := r.2, error := r.1 }, buffer)
  else
    ({ x with s := r.2, error := .noError, count := x.count + size },
      storeBytes buffer x.count size (fun o => r.2.dataSector (pos + o)))

/-- The partial sector at the front. -/
def readHead (numBytes : ℕ) (buffer : ℕ → Byte) : Transfer × (ℕ → Byte) :=
  if x.sectorOffset ≠ 0 then
    let size := min numBytes (x.s.sectorSize - x.sectorOffset)
    let y := x.fetch x.sectorOffset size buffer
    if y.1.error ≠ .noError then y
    else if x.sectorOffset + size ≥ x.s.sectorSize then
      (y.1.next (decide (size < numBytes)), y.2)
    else y
  else (x, buffer)

/-- The loop over whole sectors through the data sector. -/
def readCopied (numBytes : ℕ) : ℕ → Transfer → (ℕ → Byte) → Transfer × (ℕ → Byte)
  | 0, x, buffer => (x, buffer)
  | n + 1, x, buffer =>
    if x.error = .noError then
      let y := x.fetch 0 x.s.sectorSize buffer
      if y.1.error ≠ .noError then y
      else readCopied numBytes n (y.1.next (decide (y.1.count < numBytes))) y.2
    else (x, buffer)

/-- The tail of the last sector. -/
def readTail (numBytes : ℕ) (buffer : ℕ → Byte) : Transfer × (ℕ → Byte) :=
  if x.count < numBytes ∧ x.error = .noError then x.fetch 0 (numBytes - x.count) buffer
  else (x, buffer)

end Transfer

end Mqx.Mfs
