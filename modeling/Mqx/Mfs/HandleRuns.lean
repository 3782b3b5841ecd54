import Mqx.Mfs.FreeClusters
import Mqx.Mfs.ReadStages

/-!
# Runs of calls on a handle

A handle stands for a byte file and a position. In every run of seeks, reads and writes the
results are those of the byte file, as long as clusters are found and no sector passes by a data
sector that holds it.
-/

namespace Mqx.Mfs

variable {s s' : FileState} {cl : List ℕ} {f f' : OpenFile} {b : ByteFile} {n : ℕ}

/-! ## A read -/

theorem InPlace.sameFile (i : InPlace s cl) (h : SameFile s s' cl) : InPlace s' cl := by
  refine ⟨h.file, ?_, ?_, ?_⟩
  · rw [h.fixed.fileSize, h.fixed.chainSectors, h.fixed.sectorSize]
    exact i.room
  · rw [h.savedPosition, h.fixed.fileSize]
    exact i.le
  · rw [h.savedPosition, h.currentCluster, h.fixed.sectorSize]
    exact i.place.imp_right fun p => ⟨p.1, h.at p.2⟩

theorem Holds.sameFile (hb : Holds s cl b) (i : InPlace s cl) (h : SameFile s s' cl) :
    Holds s' cl b := by
  refine ⟨h.fixed.fileSize.trans hb.size, fun j hj => ?_⟩
  rw [← hb.byte j hj]
  exact h.byte j (lt_of_lt_of_le (by rwa [hb.size]) i.room)

/-- A handle for reading and writing on a drive whose directory sector is not dirty. -/
structure Usable (f : OpenFile) : Prop where
  dosDisk : f.dosDisk = true
  access : f.access = accessReadWrite
  dirSector : f.dirSectorDirty = false
  outputFlush : f.outputFlush = .noError

/-- With a clean directory sector the drive is unlocked as in a write. -/
theorem mfsUnlock_eq (h : Usable f) :
    f.mfsUnlock = (f.s.mfsUnlock.1, { f with s := f.s.mfsUnlock.2 }) := by
  have hdir : f.mfsFlushDirectorySectorBuffer = (.noError, f) := by
    unfold OpenFile.mfsFlushDirectorySectorBuffer
    rw [h.dirSector]
    split <;> rfl
  have hflush : ∀ e : MfsError, (if e = .noError then f.outputFlush else e) = e := by
    intro e
    rw [h.outputFlush]
    split_ifs with he
    · exact he.symm
    · rfl
  unfold OpenFile.mfsUnlock FileState.mfsUnlock OpenFile.flushBuffers
  simp only [hdir, if_true, hflush]
  by_cases hw : f.s.layout.writeCachePolicy = .writeThrough
  · simp only [if_pos hw]
    split_ifs <;> rfl
  · simp only [if_neg hw]
    split_ifs <;> rfl

/-- What a handle stands for. -/
structure Cursor where
  file : ByteFile
  pos : ℕ

/-- The handle stands for the cursor. -/
structure Represents (f : OpenFile) (c : Cursor) (cl : List ℕ) : Prop where
  usable : Usable f
  place : InPlace f.s cl
  holds : Holds f.s cl c.file
  location : f.s.location = c.pos
  savedPosition : f.s.savedPosition = min c.pos c.file.size

/-- The data sector holds unwritten bytes of none of the sectors that a read starts with and reads
directly. -/
def ClearRead (s : FileState) (cl : List ℕ) (n address : ℕ) : Prop :=
  address % 2 ^ 32 &&& s.layout.alignmentMask = 0 → s.location % s.sectorSize = 0 →
    s.dataSectorDirty = true →
      Ahead s s cl (s.location / s.sectorSize) ((s.location + n) / s.sectorSize)

/-- A handle that was not used yet stands at the first cluster. -/
theorem InPlace.readSetup (i : InPlace f.s cl) : InPlace f.readSetup cl ∧
    (cl ≠ [] → At f.readSetup cl (f.s.savedPosition / f.s.sectorSize)) := by
  unfold OpenFile.readSetup
  split_ifs with hcur
  · obtain ⟨s₁, hs₁⟩ : ∃ s₁, s₁ = { f.s with
      previousCluster := 0, currentCluster := f.s.firstCluster } := ⟨_, rfl⟩
    have hfirst := i.file.first
    have hsaved : f.s.savedPosition = 0 := by
      rcases i.place with ⟨-, hpos⟩ | ⟨-, hat⟩
      · exact hpos
      · exact absurd hcur (hat.current_ne i.file)
    have hat : cl ≠ [] → At s₁ cl (f.s.savedPosition / f.s.sectorSize) := by
      intro hne
      rw [hsaved, Nat.zero_div, hs₁]
      refine ⟨Nat.zero_le _, ?_, ?_⟩
      · simp only [Nat.zero_div, hfirst]
        exact getD_default (List.length_pos_of_ne_nil hne) _ _
      · simp only [Nat.zero_div, previousOf, if_true]
    rw [← hs₁]
    refine ⟨⟨?_, ?_, ?_, ?_⟩, hat⟩
    · rw [hs₁]
      exact i.file.handle rfl rfl rfl rfl rfl rfl
    · rw [hs₁]
      exact i.room
    · rw [hs₁]
      exact i.le
    · by_cases hne : cl = []
      · refine Or.inl ⟨?_, ?_⟩
        · rw [hs₁]
          simp only [hfirst, hne, List.getD_nil]
        · rw [hs₁]
          exact hsaved
      · refine Or.inr ⟨hne, ?_⟩
        have := hat hne
        rw [hs₁] at this ⊢
        exact this
  · refine ⟨i, fun hne => ?_⟩
    rcases i.place with ⟨hc, -⟩ | ⟨-, hat⟩
    · exact absurd hc hcur
    · exact hat

section

variable {c : Cursor} (r : Represents f c cl)

include r

theorem Represents.readSetup : Represents { f with s := f.readSetup } c cl := by
  have hsame : f.readSetup.fileSize = f.s.fileSize ∧ f.readSetup.location = f.s.location ∧
      f.readSetup.savedPosition = f.s.savedPosition ∧
      ∀ j, fileByte f.readSetup cl j = fileByte f.s cl j := by
    unfold OpenFile.readSetup
    split_ifs <;> exact ⟨rfl, rfl, rfl, fun _ => rfl⟩
  obtain ⟨hsize, hloc, hsaved, hbyte⟩ := hsame
  refine ⟨⟨r.usable.1, r.usable.2, r.usable.3, r.usable.4⟩, r.place.readSetup.1, ⟨?_, ?_⟩, ?_, ?_⟩
  · exact hsize.trans r.holds.size
  · exact fun j hj => (hbyte j).trans (r.holds.byte j hj)
  · exact hloc.trans r.location
  · exact hsaved.trans r.savedPosition

/-- Unlocking the drive changes nothing. -/
theorem Represents.unlock : ∃ f', f.mfsUnlock = (.noError, f') ∧ Represents f' c cl := by
  obtain ⟨s', hunlock, hsame⟩ := unlock_spec r.place.file
  refine ⟨{ f with s := s' }, ?_, ⟨?_, r.place.sameFile hsame, r.holds.sameFile r.place hsame,
    hsame.fixed.location.trans r.location, hsame.savedPosition.trans r.savedPosition⟩⟩
  · rw [mfsUnlock_eq r.usable, hunlock]
  · exact ⟨r.usable.1, r.usable.2, r.usable.3, r.usable.4⟩

/-- The transfer of a read of bytes that are there. -/
theorem readTransfer_spec (address processed : ℕ) (buffer : ℕ → Byte) (hn : 0 < n)
    (hle : c.pos + n ≤ c.file.size) (hlim : n < 2 ^ 32) (hclear : ClearRead f.s cl n address) :
    ∃ y buffer', f.readTransfer n address processed buffer = (y, buffer') ∧ y.count = n ∧
      (∀ o < n, buffer' o = c.file.byte (c.pos + o)) ∧
      Represents { f with s := { y.s with
        location := c.pos + n, savedPosition := c.pos + n } } ⟨c.file, c.pos + n⟩ cl := by
  have hsize := r.holds.size
  have hroom := r.place.room
  have hne : cl ≠ [] := by
    rintro rfl
    rw [chainSectors, List.length_nil, Nat.zero_mul, Nat.zero_mul] at hroom
    omega
  have hmin : min f.s.location f.s.fileSize = c.pos := by
    rw [r.location, hsize]
    omega
  have hstart := r.readSetup
  have hat := r.place.readSetup.2 hne
  have hsetup : f.readSetup.layout = f.s.layout ∧ f.readSetup.sectorSize = f.s.sectorSize ∧
      f.readSetup.dataSectorDirty = f.s.dataSectorDirty ∧
      f.readSetup.dataSectorNumber = f.s.dataSectorNumber := by
    unfold OpenFile.readSetup
    split_ifs <;> exact ⟨rfl, rfl, rfl, rfl⟩
  unfold OpenFile.readTransfer
  rw [hmin]
  generalize f.readSetup = s₀ at hstart hat hsetup ⊢
  obtain ⟨hlay, hss, hdirty, hnum⟩ := hsetup
  have hpos := hstart.place.file.drive.sync.vol.sectorSize_pos
  have hroom₀ := hstart.place.room
  have hsize₀ : s₀.fileSize = c.file.size := hstart.holds.size
  have hin : c.pos + n ≤ chainSectors s₀ cl * s₀.sectorSize :=
    hle.trans (hsize₀.symm.le.trans hroom₀)
  rw [r.savedPosition, ← hss, Nat.min_eq_left (by omega)] at hat
  have hk : c.pos / s₀.sectorSize < chainSectors s₀ cl := sector_lt (by omega)
  have hinv : ReadInv s₀ (s₀.transfer c.pos) cl c.pos buffer :=
    ⟨Fixed.refl _, hstart.place.file, rfl, fun _ _ => rfl, fun o ho =>
      absurd ho (Nat.not_lt_zero o)⟩
  have hahead : address % 2 ^ 32 &&& s₀.layout.alignmentMask = 0 → c.pos % s₀.sectorSize = 0 →
      s₀.dataSectorDirty = true →
        Ahead s₀ s₀ cl (c.pos / s₀.sectorSize) ((c.pos + n) / s₀.sectorSize) := by
    rw [hlay, hdirty, hss]
    intro hal h0 hd k' hlo hhi hlt
    rw [hnum, fileSector_congr hlay]
    rw [← r.location] at h0 hlo hhi
    refine hclear hal h0 hd k' hlo hhi ?_
    rwa [chainSectors, hlay] at hlt
  obtain ⟨y, buffer', hrun, ry, haty, hcount⟩ := readBytes_spec f.readDone address processed hn hlim
    rfl rfl hin hinv (transfer_stands hat hk) hahead
  have hbyte : ∀ j < c.file.size, fileByte s₀ cl j = c.file.byte j := fun j hj =>
    hstart.holds.byte j hj
  refine ⟨y, buffer', hrun, hcount, fun o ho => ?_, ⟨?_, ⟨?_, ?_, ?_, ?_⟩,
    ⟨?_, fun j hj => ?_⟩, rfl, ?_⟩⟩
  · rw [ry.bytes o (by omega)]
    exact hbyte _ (by omega)
  · exact ⟨r.usable.1, r.usable.2, r.usable.3, r.usable.4⟩
  · exact ry.file.handle rfl rfl rfl rfl rfl rfl
  · have h1 : chainSectors y.s cl = chainSectors s₀ cl := ry.fixed.chainSectors cl
    have h2 : y.s.sectorSize = s₀.sectorSize := ry.fixed.sectorSize
    have h3 : y.s.fileSize = s₀.fileSize := ry.fixed.fileSize
    simp only [chainSectors] at h1 ⊢
    rw [h3, h1]
    exact h2 ▸ hroom₀
  · exact hle.trans (hsize₀.symm.le.trans ry.fixed.fileSize.symm.le)
  · refine Or.inr ⟨hne, haty.congr rfl ?_ rfl rfl⟩
    change (c.pos + n) / y.s.sectorSize = _
    rw [ry.fixed.sectorSize]
  · exact ry.fixed.fileSize.trans hsize₀
  · have hjs : j < chainSectors s₀ cl * s₀.sectorSize :=
      lt_of_lt_of_le hj (hsize₀.symm.le.trans hroom₀)
    exact (ry.same j hjs).trans (hbyte j hj)
  · exact (Nat.min_eq_left hle).symm

end

/-- A read returns the bytes of the file from the position on. -/
theorem read_refines {c : Cursor} (r : Represents f c cl) (address processed : ℕ)
    (buffer : ℕ → Byte) (haddr : address ≠ 0) (hn : 0 < n) (hlim : n < 2 ^ 32)
    (hclear : ClearRead f.s cl (min n f.bytesLeft) address) :
    ∃ f' buffer', f.mfsRead n address processed buffer =
        (if n > c.file.size - c.pos then .eof else .noError, min n (c.file.size - c.pos), buffer',
          f') ∧
      Represents f' ⟨c.file, c.pos + min n (c.file.size - c.pos)⟩ cl ∧
      ∀ o < min n (c.file.size - c.pos), buffer' o = c.file.byte (c.pos + o) := by
  have i := r.place
  have hsize := r.holds.size
  have hleft : f.bytesLeft = c.file.size - c.pos := by
    rw [OpenFile.bytesLeft, r.location, hsize]
    omega
  rw [hleft] at hclear
  unfold OpenFile.mfsRead
  rw [if_neg (by omega), if_neg haddr, if_neg (by rw [r.usable.dosDisk]; decide),
    if_neg (by rw [r.usable.access]; decide)]
  by_cases heof : f.s.currentCluster = eofCluster
  · -- the handle stands behind the chain
    have hend : c.file.size ≤ c.pos := by
      rcases i.place with ⟨hc, -⟩ | ⟨-, hat⟩
      · rw [heof] at hc
        exact absurd hc (by decide)
      · have hk := (hat.lt_of_ne (fun c hc => (i.file.chain.range c hc).2)
          i.file.drive.geometry).mp heof
        have hsplit := sector_start_le f.s.savedPosition f.s.sectorSize
        have hroom := i.room
        have hsaved := r.savedPosition
        rw [hk] at hsplit
        omega
    obtain ⟨f', hunlock, hr⟩ := r.unlock
    have h0 : c.file.size - c.pos = 0 := by omega
    rw [if_pos heof, hunlock, h0, Nat.min_zero, if_pos hn]
    exact ⟨f', buffer, rfl, hr, fun o ho => absurd ho (Nat.not_lt_zero o)⟩
  rw [if_neg heof]
  unfold OpenFile.readBody
  rw [hleft]
  by_cases h0 : c.file.size - c.pos = 0
  · obtain ⟨f', hunlock, hr⟩ := r.readSetup.unlock
    rw [if_pos h0]
    simp only [hunlock, h0, Nat.min_zero, true_and, gt_iff_lt, if_pos hn]
    exact ⟨f', buffer, rfl, hr, fun o ho => absurd ho (Nat.not_lt_zero o)⟩
  · obtain ⟨y, buffer', hrun, hcount, hbytes, hr⟩ := readTransfer_spec r address processed
      buffer (n := min n (c.file.size - c.pos)) (by omega) (by omega) (by omega) hclear
    obtain ⟨f', hunlock, hr'⟩ := hr.unlock
    have hmin : min f.s.location f.s.fileSize = c.pos := by
      rw [r.location, hsize]
      omega
    rw [if_neg h0]
    simp only [hrun, hcount, hmin, hunlock, true_and]
    exact ⟨f', buffer', rfl, hr', hbytes⟩

/-! ## Runs -/

/-- What is called on the handle; `address` is that of the buffer. -/
inductive FileCall where
  | seek (location : ℕ)
  | write (numBytes address : ℕ) (buffer : ℕ → Byte)
  | read (numBytes address processed : ℕ) (buffer : ℕ → Byte)

/-- What a call returns. -/
inductive FileResult where
  | seek (error : MfsError)
  | write (error : MfsError) (numBytes : ℕ)
  | read (error : MfsError) (bytes : List Byte)

/-- A seek sets `LOCATION` before it moves the handle. -/
def OpenFile.exec (f : OpenFile) : FileCall → FileResult × OpenFile
  | .seek location =>
    let r := { f.s with location := location }.mfsMoveFilePointer
    (.seek r.1, { f with s := r.2 })
  | .write numBytes address buffer =>
    let r := f.s.mfsWrite numBytes address buffer
    (.write r.1 r.2.1, { f with s := r.2.2 })
  | .read numBytes address processed buffer =>
    let r := f.mfsRead numBytes address processed buffer
    (.read r.1 ((List.range r.2.1).map r.2.2.1), r.2.2.2)

def OpenFile.run (f : OpenFile) : List FileCall → List FileResult × OpenFile
  | [] => ([], f)
  | call :: calls =>
    let r := f.exec call
    let t := r.2.run calls
    (r.1 :: t.1, t.2)

namespace Cursor

variable (c : Cursor)

/-- The bytes from the position on. -/
def bytes (n : ℕ) : List Byte :=
  (List.range (min n (c.file.size - c.pos))).map fun o => c.file.byte (c.pos + o)

def exec : FileCall → Cursor
  | .seek location => ⟨c.file, location⟩
  | .write numBytes _ buffer => ⟨c.file.write c.pos numBytes buffer, c.pos + numBytes⟩
  | .read numBytes _ _ _ => ⟨c.file, c.pos + min numBytes (c.file.size - c.pos)⟩

/-- The result of a call on the cursor; a seek may report the end of the file. -/
def Returns : FileCall → FileResult → Prop
  | .seek _, r => r = .seek .noError ∨ r = .seek .eof
  | .write numBytes _ _, r => r = .write .noError numBytes
  | .read numBytes _ _ _, r =>
    r = .read (if numBytes > c.file.size - c.pos then .eof else .noError) (c.bytes numBytes)

/-- The results of a run on the cursor. -/
inductive Runs : Cursor → List FileCall → List FileResult → Cursor → Prop
  | nil (c : Cursor) : Runs c [] [] c
  | cons {c c' : Cursor} {call : FileCall} {calls : List FileCall} {r : FileResult}
      {rs : List FileResult} (h : c.Returns call r) (t : Runs (c.exec call) calls rs c') :
      Runs c (call :: calls) (r :: rs) c'

end Cursor

/-- The handle has a buffer and something to transfer, positions are 32 bits wide, and no sector
passes by a data sector that holds it. -/
def Admits (f : OpenFile) : FileCall → Prop
  | .seek _ => True
  | .write numBytes address _ => address ≠ 0 ∧ 0 < numBytes ∧ f.s.location + numBytes < 2 ^ 32 ∧
      ∀ cl, FileInv f.s cl → Clear f.s cl numBytes address
  | .read numBytes address _ _ => address ≠ 0 ∧ 0 < numBytes ∧ numBytes < 2 ^ 32 ∧
      ∀ cl, FileInv f.s cl → ClearRead f.s cl (min numBytes f.bytesLeft) address

/-- Every call is admitted where it is made, and no search for a free cluster fails. -/
def AdmitsAll : OpenFile → List FileCall → Prop
  | _, [] => True
  | f, call :: calls => Admits f call ∧ (f.exec call).2.s.full = false ∧
      AdmitsAll (f.exec call).2 calls

/-- One call is one on the cursor. -/
theorem Represents.step {call : FileCall} {c : Cursor} (r : Represents f c cl)
    (h : Admits f call) (hfull : (f.exec call).2.s.full = false) :
    ∃ cl', c.Returns call (f.exec call).1 ∧ Represents (f.exec call).2 (c.exec call) cl' := by
  have hsize := r.holds.size
  have hus : ∀ s, Usable { f with s := s } := fun s =>
    ⟨r.usable.1, r.usable.2, r.usable.3, r.usable.4⟩
  cases call with
  | seek location =>
    obtain ⟨s₁, hs₁⟩ : ∃ s₁, s₁ = { f.s with location := location } := ⟨_, rfl⟩
    have i₁ : InPlace s₁ cl := by
      rw [hs₁]
      refine ⟨r.place.file.handle rfl rfl rfl rfl rfl rfl, r.place.room, r.place.le,
        r.place.place.imp_right fun p => ⟨p.1, p.2.congr rfl rfl rfl rfl⟩⟩
    have h₁ : Holds s₁ cl c.file := by
      rw [hs₁]
      exact ⟨hsize, r.holds.byte⟩
    obtain ⟨e, s', hrun, he, hplace, hholds, hloc, hsaved⟩ := seek_refines i₁ h₁
    rw [h₁.size] at hsaved
    rw [hs₁] at hrun hloc hsaved
    refine ⟨cl, ?_, ?_⟩
    · rcases he with rfl | rfl
      · exact Or.inl (by simp only [OpenFile.exec, hrun])
      · exact Or.inr (by simp only [OpenFile.exec, hrun])
    · simp only [OpenFile.exec, hrun]
      exact ⟨hus s', hplace, hholds, hloc, hsaved⟩
  | write numBytes address buffer =>
    obtain ⟨haddr, hn, hlim, hclear⟩ := h
    have hpos : f.s.savedPosition = min f.s.location f.s.fileSize := by
      rw [r.savedPosition, r.location, hsize]
    rcases write_refines r.place r.holds hpos haddr hn hlim (hclear cl r.place.file) with
      hdisk | ⟨s', cl', hrun, hplace, hholds, hloc, hsaved⟩
    · rw [OpenFile.exec] at hfull
      exact absurd hfull (by rw [hdisk]; decide)
    · rw [r.location] at hholds hloc hsaved
      refine ⟨cl', ?_, ?_⟩
      · simp only [Cursor.Returns, OpenFile.exec, hrun]
      · simp only [OpenFile.exec, hrun]
        refine ⟨hus s', hplace, hholds, hloc, hsaved.trans ?_⟩
        exact (Nat.min_eq_left (le_max_right _ _)).symm
  | read numBytes address processed buffer =>
    obtain ⟨haddr, hn, hlim, hclear⟩ := h
    obtain ⟨f', buffer', hrun, hr, hbytes⟩ := read_refines r address processed buffer haddr hn
      hlim (hclear cl r.place.file)
    refine ⟨cl, ?_, ?_⟩
    · simp only [Cursor.Returns, OpenFile.exec, hrun, Cursor.bytes]
      congr 1
      exact List.map_congr_left fun o ho => hbytes o (List.mem_range.mp ho)
    · simp only [OpenFile.exec, hrun]
      exact hr

/-- A handle that stands for a cursor returns what the cursor does in every run, and then stands
for the cursor at its end. -/
theorem handle_runs {c : Cursor} (r : Represents f c cl) (calls : List FileCall)
    (h : AdmitsAll f calls) :
    ∃ c' cl', c.Runs calls (f.run calls).1 c' ∧ Represents (f.run calls).2 c' cl' := by
  induction calls generalizing f c cl with
  | nil => exact ⟨c, cl, .nil c, r⟩
  | cons call calls ih =>
    obtain ⟨hcall, hfull, hrest⟩ := h
    obtain ⟨cl₁, hret, r₁⟩ := r.step hcall hfull
    obtain ⟨c', cl', hruns, r'⟩ := ih r₁ hrest
    exact ⟨c', cl', .cons hret hruns, r'⟩

/-- An empty file on a drive of three clusters. -/
def emptyFile : OpenFile where
  s := {
    d := filledDrive .fat12 2 3 0
    layout := {
      sectorsPerCluster := 1
      dataStartSector := 37
      alignmentMask := 3
      writeCachePolicy := .writeBack
      fatCachePolicy := .writeBack }
    nextFreeCluster := 2
    dataSectorNumber := 2 ^ 32 - 1
    dataSectorDirty := false
    dataSector := fun _ => 0
    location := 0
    savedPosition := 0
    currentCluster := 0
    previousCluster := 0
    firstCluster := 0
    fileSize := 0
    full := false }
  dosDisk := true
  access := accessReadWrite
  dirSectorNumber := 5
  dirSectorDirty := false
  dirSector := fun _ => 0
  readDone := fun _ => 0
  outputFlush := .noError

theorem emptyFile_represents : Represents emptyFile ⟨⟨0, fun _ => 0⟩, 0⟩ [] := by
  have hsync : (filledDrive .fat12 2 3 0).InSync :=
    filledDrive_inSync .fat12 0 (by decide) (by decide) (by decide) (by decide)
  have hworks := filledDrive_works .fat12 2 3 0
  have hdrive : DriveInv emptyFile.s := by
    refine ⟨hsync, hworks, ⟨by decide, by decide, by decide, by decide, by decide⟩, ?_, ?_, ?_⟩
    · exact fun h => absurd h (by decide)
    · exact fun h => absurd h (by decide)
    · exact fun _ h => absurd h (by decide)
  refine ⟨⟨rfl, rfl, rfl, rfl⟩, ⟨⟨hdrive, ⟨?_, ?_, ?_, ?_⟩, rfl, ?_⟩, ?_, ?_, Or.inl ⟨rfl, rfl⟩⟩,
    ⟨rfl, ?_⟩, rfl, rfl⟩
  · exact List.nodup_nil
  · simp
  · simp
  · simp
  · intro c _ hlast _ r hr
    have hc : c ≤ 4 := hlast
    have hr1 : r < 1 := hr
    change 2 ^ 32 - 1 ≠ (c - clusterMinGood) * 1 + 37 + r
    omega
  · decide
  · decide
  · exact fun j hj => absurd hj (Nat.not_lt_zero j)

/-- Two of three written bytes are read back. -/
theorem handle_runs_emptyFile :
    ∃ c' cl', Cursor.Runs ⟨⟨0, fun _ => 0⟩, 0⟩
        [.write 3 5 fun o => BitVec.ofNat 8 (o + 1), .seek 1, .read 2 5 0 fun _ => 0]
        [.write .noError 3, .seek .noError, .read .noError [2, 3]] c' ∧
      Represents (emptyFile.run [.write 3 5 fun o => BitVec.ofNat 8 (o + 1), .seek 1,
        .read 2 5 0 fun _ => 0]).2 c' cl' := by
  have h := handle_runs emptyFile_represents
    [.write 3 5 fun o => BitVec.ofNat 8 (o + 1), .seek 1, .read 2 5 0 fun _ => 0]
    ⟨⟨by decide, by decide, by decide, fun _ _ hal => absurd hal (by decide)⟩, by decide,
      trivial, by decide,
      ⟨by decide, by decide, by decide, fun _ _ hal => absurd hal (by decide)⟩, by decide, trivial⟩
  exact h

end Mqx.Mfs
