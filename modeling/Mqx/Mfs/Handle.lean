import Mqx.Mfs.Drive

/-!
# Open handles

A drive keeps its open handles on one list. `mfsOpenFile` looks for a handle on the
directory entry it has found and applies the sharing rule: an entry that is open for
writing has no other handle. `mfsCreateFile` truncates an entry that exists and opens it
without looking at the rule.

The functions of the directory and of the table are called once or twice by each of them;
what these calls return is an argument here, so that the results hold for every directory.
The functions also return the handles they have read: `none` is a read through the null
pointer, which finds whatever the memory there holds.
-/

namespace Mqx.Mfs

/-- What a handle keeps of `MFS_DIR_ENTRY`. -/
structure DirEntry where
  attr : Byte
  firstCluster : ℕ
  fileSize : ℕ
  deriving DecidableEq

/-- `MFS_HANDLE`, with the address of its block. -/
structure Handle where
  address : ℕ
  dirEntry : DirEntry
  access : BitVec 16
  touched : Bool
  currentCluster : ℕ
  previousCluster : ℕ
  dirCluster : ℕ
  dirIndex : ℕ
  deriving DecidableEq

/-- A directory entry, with the cluster and the index of its slot. -/
structure Slot where
  entry : DirEntry
  cluster : ℕ
  index : ℕ

/-- The end of a call: the error, the address returned, the list of open handles and the
handles that were read. -/
structure Outcome where
  error : MfsError
  handle : Option ℕ
  handles : List Handle
  inspected : List (Option ℕ)

def accessReadOnly : BitVec 16 := 0
def accessWriteOnly : BitVec 16 := 1
def accessReadWrite : BitVec 16 := 2

def attrReadOnly : Byte := 0x01
def attrVolumeName : Byte := 0x08
def attrDirName : Byte := 0x10
def attrArchive : Byte := 0x20

def Writes (access : BitVec 16) : Prop := access = accessWriteOnly ∨ access = accessReadWrite

instance (access : BitVec 16) : Decidable (Writes access) := inferInstanceAs (Decidable (_ ∨ _))

/-- The handle is open on the slot. -/
def Handle.On (h : Handle) (cluster index : ℕ) : Prop :=
  h.dirCluster = cluster ∧ h.dirIndex = index

instance (h : Handle) (cluster index : ℕ) : Decidable (h.On cluster index) :=
  inferInstanceAs (Decidable (_ ∧ _))

/-! ## The functions -/

/-- The first handle on the slot, and the handles read on the way. -/
def mfsFindHandle (cluster index : ℕ) : List Handle → Option Handle × List (Option ℕ)
  | [] => (none, [])
  | h :: rest =>
    if h.On cluster index then (some h, [some h.address])
    else
      let r := mfsFindHandle cluster index rest
      (r.1, some h.address :: r.2)

/-- A new block, zeroed and with the entry copied into it. -/
def mfsGetHandle (block : ℕ) (entry : DirEntry) : Handle :=
  ⟨block, entry, 0, false, 0, 0, 0, 0⟩

/-- The handle `MFS_Open_file` and `MFS_Create_file` make of a slot. -/
def newHandle (block : ℕ) (slot : Slot) (access : BitVec 16) : Handle :=
  { mfsGetHandle block slot.entry with
    access := access
    dirCluster := slot.cluster
    dirIndex := slot.index }

/-- What the functions called by `MFS_Open_file` return: locking the drive, finding the
entry, and the block for the handle. -/
structure OpenCalls where
  lock : MfsError
  found : Except MfsError Slot
  block : Option ℕ

/-- The sharing test of `MFS_Open_file`. The second condition reads the access mode through
`handle`, which is null at this point, and not through the handle that was found. -/
def sharingError (nullAccess access : BitVec 16) : Option Handle → MfsError × List (Option ℕ)
  | none => (.noError, [])
  | some _ =>
    let error := if Writes access then MfsError.sharingViolation else .noError
    if Writes nullAccess then (.sharingViolation, [none]) else (error, [none])

/-- `MFS_Open_file`. `nullAccess` is what a read of the access mode through the null
pointer gives. -/
def mfsOpenFile (nullAccess : BitVec 16) (hs : List Handle) (pathname : List Byte)
    (access : Byte) (c : OpenCalls) : Outcome :=
  if pathname = [] then ⟨.invalidParameter, none, hs, []⟩
  else if c.lock ≠ .noError then ⟨c.lock, none, hs, []⟩
  else
    match c.found with
    | .error e => ⟨e, none, hs, []⟩
    | .ok slot =>
      if slot.entry.attr &&& (attrDirName ||| attrVolumeName) ≠ 0 then
        ⟨.writeFault, none, hs, []⟩
      else if slot.entry.attr &&& attrReadOnly ≠ 0 ∧ Writes (access.setWidth 16) then
        ⟨.accessDenied, none, hs, []⟩
      else
        let found := mfsFindHandle slot.cluster slot.index hs
        let sharing := sharingError nullAccess (access.setWidth 16) found.1
        if sharing.1 = .noError then
          match c.block with
          | none => ⟨.insufficientMemory, none, hs, found.2 ++ sharing.2⟩
          | some block =>
            ⟨.noError, some block, hs ++ [newHandle block slot (access.setWidth 16)], found.2 ++ sharing.2⟩
        else ⟨sharing.1, none, hs, found.2 ++ sharing.2⟩

/-- What the functions called by `MFS_Create_file` return: `MFS_Create_entry_slave` gives
an entry with `MFS_NO_ERROR` when it is new and with `MFS_FILE_EXISTS` when it is not. -/
structure CreateCalls where
  lock : MfsError
  created : MfsError × Option Slot
  block : Option ℕ
  released : MfsError
  updated : MfsError
  updatedAttr : MfsError

/-- The attributes a created file can get. -/
def createAttr (attr : Byte) : Byte := attr &&& 0x2F#8 ||| attrArchive

def createAccess (attr : Byte) : BitVec 16 :=
  if createAttr attr &&& attrReadOnly ≠ 0 then accessReadOnly else accessReadWrite

/-- Every handle on the slot starts again at the beginning of the chain. -/
def restart (cluster index : ℕ) (hs : List Handle) : List Handle :=
  hs.map fun h =>
    if h.On cluster index then { h with currentCluster := 0, previousCluster := 0 } else h

/-- The error so far, the new handle, the handles in front of it and what was read. -/
structure Created where
  error : MfsError
  handle : Handle
  others : List Handle
  inspected : List (Option ℕ)

/-- The part of `MFS_Create_file` for a file that exists: once its chain is released, its
size is set to zero, and all handles on it are walked to start again. -/
def truncate (attr : Byte) (slot : Slot) (h : Handle) (hs : List Handle) (c : CreateCalls) :
    Created :=
  if c.released = .noError ∨ c.released = .lostChain then
    let h₁ := { h with dirEntry := ⟨createAttr attr, 0, 0⟩ }
    if c.updated = .noError then
      ⟨.noError, h₁, restart slot.cluster slot.index hs,
        (hs ++ [h₁]).map fun g => some g.address⟩
    else ⟨c.updated, h₁, hs, []⟩
  else ⟨.fileExists, h, hs, []⟩

/-- The attribute is written when it differs from the one the entry has. -/
def setAttr (attr : Byte) (updated : MfsError) (r : Created) : Created :=
  if r.handle.dirEntry.attr ≠ attr ∧ r.error = .noError then
    { r with
      error := updated
      handle := { r.handle with dirEntry := { r.handle.dirEntry with attr := attr } } }
  else r

/-- `MFS_Create_file`. -/
def mfsCreateFile (readOnly : Bool) (hs : List Handle) (attr : Byte) (pathname : List Byte)
    (c : CreateCalls) : Outcome :=
  if pathname = [] then ⟨.invalidParameter, none, hs, []⟩
  else if readOnly then ⟨.diskIsWriteProtected, none, hs, []⟩
  else if c.lock ≠ .noError then ⟨c.lock, none, hs, []⟩
  else
    match c.created.2 with
    | none => ⟨c.created.1, none, hs, []⟩
    | some slot =>
      if createAttr attr &&& attrVolumeName ≠ 0 then ⟨c.created.1, none, hs, []⟩
      else
        match c.block with
        | none => ⟨.insufficientMemory, none, hs, []⟩
        | some block =>
          let h := newHandle block slot (createAccess attr)
          let r := setAttr (createAttr attr) c.updatedAttr
            (if c.created.1 = .fileExists then truncate attr slot h hs c
              else ⟨c.created.1, h, hs, []⟩)
          let lost := c.created.1 = .fileExists ∧ c.released = .lostChain
          ⟨if r.error = .noError ∧ lost then .lostChain else r.error, some block,
            r.others ++ [r.handle], r.inspected⟩

/-- `MFS_Close_file` on the handle at `address`: whatever updating the entry gives, the
handle is taken off the list. -/
def mfsCloseFile (readOnly : Bool) (hs : List Handle) (address : ℕ) (lock updated : MfsError) :
    Outcome :=
  if lock ≠ .noError then ⟨lock, none, hs, []⟩
  else
    let touched := hs.any fun h => h.address = address ∧ h.touched
    let error :=
      if readOnly then MfsError.diskIsWriteProtected
      else if touched then updated else .noError
    ⟨error, none, hs.eraseP (fun h => h.address = address), [some address]⟩

end Mqx.Mfs
