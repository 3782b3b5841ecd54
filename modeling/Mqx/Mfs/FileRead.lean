import Mqx.Mfs.DataSector
import Mqx.Mfs.Handle

/-!
# Reading from a file

`MFS_Read` with everything that can fail: the transfers of the device, the reads of the table,
and the flushes of the data sector, the directory sector and the table when the drive is
unlocked.
-/

namespace Mqx.Mfs

namespace Transfer

variable (x : Transfer)

/-- `proc_sectors` after a request for `count` sectors: a request outside of the device leaves it
as it was, and a transfer that fails has read fewer sectors than it should. -/
def procSectors (done : ℕ → ℕ) (count processed : ℕ) : ℕ :=
  if x.sectorNumber + count - 1 > x.s.d.vol.megaSectors then processed
  else if (x.s.d.ioFault x.s.d.ioCount).isNone then count
  else min (done x.s.d.ioCount) (count - 1)

/-- The variables after a request that has read `proc` sectors. -/
def received (proc : ℕ) (r : MfsError × (ℕ → Byte) × Drive) : Transfer :=
  { x with
    s := { x.s with d := r.2.2 }
    error := r.1
    count := (x.count + proc * x.s.sectorSize) % 2 ^ 32
    sectorIndex := x.sectorIndex + (proc - 1) }

/-- One turn of the loop over whole sectors without a copy, which asks for `count` of them. Returns
`proc_sectors`. -/
def readSectors (done : ℕ → ℕ) (numBytes count processed : ℕ) (buffer : ℕ → Byte) :
    ℕ × Transfer × (ℕ → Byte) :=
  let r := mfsReadDeviceSectors x.s.d x.sectorNumber count buffer x.count
  let proc := x.procSectors done count processed
  let y := x.received proc r
  if proc > 0 then (proc, y.next (decide (r.1 = .noError ∧ y.count < numBytes)), r.2.1)
  else (proc, { x with s := { x.s with d := r.2.2 }, error := r.1 }, r.2.1)

/-- `cont_sectors`. -/
def contSectors (wholeSectors : ℕ) : ℕ :=
  min (x.s.layout.sectorsPerCluster - x.sectorIndex) wholeSectors

/-- The loop over whole sectors without a copy. -/
def readDirect (done : ℕ → ℕ) (numBytes : ℕ) :
    ℕ → ℕ → ℕ → Transfer → (ℕ → Byte) → Transfer × (ℕ → Byte)
  | 0, _, _, x, buffer => (x, buffer)
  | n + 1, wholeSectors, processed, x, buffer =>
    if wholeSectors > 0 ∧ x.error = .noError then
      let r := x.readSectors done numBytes (x.contSectors wholeSectors) processed buffer
      readDirect done numBytes n (wholeSectors - r.1) r.1 r.2.1 r.2.2
    else (x, buffer)

/-- `processed` is what `proc_sectors` holds before it is set. -/
def readWhole (done : ℕ → ℕ) (numBytes address processed : ℕ) (buffer : ℕ → Byte) :
    Transfer × (ℕ → Byte) :=
  let wholeSectors := (numBytes - x.count) / x.s.sectorSize
  if x.Aligned address then
    readDirect done numBytes wholeSectors wholeSectors processed x buffer
  else readCopied numBytes wholeSectors x buffer

/-- The transfer of `numBytes` bytes. -/
def readBytes (done : ℕ → ℕ) (numBytes address processed : ℕ) (buffer : ℕ → Byte) :
    Transfer × (ℕ → Byte) :=
  let h := x.readHead numBytes buffer
  let w := h.1.readWhole done numBytes address processed h.2
  w.1.readTail numBytes w.2

end Transfer

/-- An open file, with the directory sector of the drive. `readDone` says how many sectors a
failing transfer reads, and `outputFlush` is what `IO_IOCTL_FLUSH_OUTPUT` returns where the device
has it. -/
structure OpenFile where
  s : FileState
  dosDisk : Bool
  access : BitVec 16
  dirSectorNumber : ℕ
  dirSectorDirty : Bool
  dirSector : ℕ → Byte
  readDone : ℕ → ℕ
  outputFlush : MfsError

namespace OpenFile

variable (f : OpenFile)

/-- `MFS_Flush_directory_sector_buffer`. -/
def mfsFlushDirectorySectorBuffer : MfsError × OpenFile :=
  if f.s.d.vol.readOnly then (.noError, f)
  else if f.dirSectorDirty then
    let r := mfsWriteDeviceSectors f.s.d f.dirSectorNumber 1 f.dirSector
    (r.1, { f with s := { f.s with d := r.2 }, dirSectorDirty := false })
  else (.noError, f)

/-- The flushes of `MFS_unlock` under `WRITE_CACHE_POLICY`. -/
def flushBuffers : MfsError × OpenFile :=
  if f.s.layout.writeCachePolicy = .writeThrough then
    let r := f.mfsFlushDirectorySectorBuffer
    if r.1 = .noError then
      let t := r.2.s.mfsFlushDataSectorBuffer
      (t.1, { r.2 with s := t.2 })
    else r
  else (.noError, f)

/-- `MFS_unlock`, called with `flush_if_mixed_mode` false. -/
def mfsUnlock : MfsError × OpenFile :=
  let r := f.flushBuffers
  if r.1 = .noError ∧ f.s.layout.fatCachePolicy = .writeThrough then
    let t := mfsFlushFatCache r.2.s.d
    (if t.1 = .noError then f.outputFlush else t.1, { r.2 with s := { r.2.s with d := t.2 } })
  else r

/-- `bytes_left_in_file`. -/
def bytesLeft : ℕ := f.s.fileSize - min f.s.location f.s.fileSize

/-- The current cluster of a read. -/
def readSetup : FileState :=
  if f.s.currentCluster = 0 then
    { f.s with previousCluster := 0, currentCluster := f.s.firstCluster }
  else f.s

/-- The transfer of a read of `numBytes` bytes, which are left in the file. -/
def readTransfer (numBytes address processed : ℕ) (buffer : ℕ → Byte) : Transfer × (ℕ → Byte) :=
  (f.readSetup.transfer (min f.s.location f.s.fileSize)).readBytes f.readDone numBytes address
    processed buffer

/-- The file when the drive is unlocked: bytes read, buffer and state. -/
def readBody (numBytes address processed : ℕ) (buffer : ℕ → Byte) : ℕ × (ℕ → Byte) × OpenFile :=
  if f.bytesLeft = 0 then (0, buffer, { f with s := f.readSetup })
  else
    let t := f.readTransfer (min numBytes f.bytesLeft) address processed buffer
    (t.1.count, t.2, { f with s := { t.1.s with
      location := min f.s.location f.s.fileSize + t.1.count
      savedPosition := min f.s.location f.s.fileSize + t.1.count } })

/-- Returns the error, the number of bytes read, the buffer and the new state. `processed` is what
`proc_sectors` holds at the start. -/
def mfsRead (numBytes address processed : ℕ) (buffer : ℕ → Byte) :
    MfsError × ℕ × (ℕ → Byte) × OpenFile :=
  if numBytes = 0 then (.noError, 0, buffer, f)
  else if address = 0 then (.invalidParameter, 0, buffer, f)
  else if f.dosDisk = false then (.notADosDisk, 0, buffer, f)
  else if f.access ≠ accessReadOnly ∧ f.access ≠ accessReadWrite then
    (.accessDenied, 0, buffer, f.mfsUnlock.2)
  else if f.s.currentCluster = eofCluster then (.eof, 0, buffer, f.mfsUnlock.2)
  else
    let r := f.readBody numBytes address processed buffer
    let u := r.2.2.mfsUnlock
    (if u.1 = .noError ∧ numBytes > f.bytesLeft then .eof else u.1, r.1, r.2.1, u.2)

end OpenFile

/-! ## Reports -/

/-- An error that tells of failed data. -/
def Reported (error : MfsError) : Prop := error ≠ .noError ∧ error ≠ .eof

instance (error : MfsError) : Decidable (Reported error) := inferInstanceAs (Decidable (_ ∧ _))

/-- A dirty data sector is still in the buffer, or on the device. -/
def DataKept (s s' : FileState) : Prop :=
  s.dataSectorDirty = true →
    (s'.dataSectorDirty = true ∧ s'.dataSectorNumber = s.dataSectorNumber ∧
      ∀ o < s.sectorSize, s'.dataSector o = s.dataSector o) ∨
    ∀ o < s.sectorSize, s'.d.device s.dataSectorNumber o = s.dataSector o

/-- A dirty directory sector is still in the buffer, or on the device. -/
def DirKept (f f' : OpenFile) : Prop :=
  f.dirSectorDirty = true →
    (f'.dirSectorDirty = true ∧ f'.dirSectorNumber = f.dirSectorNumber ∧
      ∀ o < f.s.sectorSize, f'.dirSector o = f.dirSector o) ∨
    ∀ o < f.s.sectorSize, f'.s.d.device f.dirSectorNumber o = f.dirSector o

/-- A read that swallows no error: fewer bytes than there are, or a dirty sector that is neither
kept nor written, are reported. -/
def SwallowsNothing (f : OpenFile) (numBytes : ℕ)
    (r : MfsError × ℕ × (ℕ → Byte) × OpenFile) : Prop :=
  (r.2.1 < min numBytes f.bytesLeft → Reported r.1) ∧
    (DataKept f.s r.2.2.2.s ∧ DirKept f r.2.2.2 ∨ Reported r.1)

end Mqx.Mfs
