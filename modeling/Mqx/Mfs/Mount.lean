import Mqx.Mfs.FormatMount

/-!
# Mounting an arbitrary boot sector

`mfsMountDriveInternal` divides by fields of the boot sector and shifts them until a bit
comes out. `mfsMountDrive` is the same function with a trap where a division is by zero,
with a bound on the rounds of the two loops and with the two allocations, each of which can
fail. Where it returns it does what `mfsMountDriveInternal` does.
-/

namespace Mqx.Mfs

/-- How a computation fails to return: it divides by zero, or a loop is not left within the
rounds it was given. -/
inductive Trap where
  | divideByZero
  | endless
  deriving DecidableEq, Repr

def divide (x y : ℕ) : Except Trap ℕ :=
  if y = 0 then .error .divideByZero else .ok (x / y)

/-- `for (power = 0; !(k & 1); power++) k >>= 1`, for at most `rounds` rounds. -/
def shiftPower : ℕ → ℕ → ℕ → Except Trap ℕ
  | 0, _, _ => .error .endless
  | rounds + 1, k, power =>
    if k % 2 = 0 then shiftPower rounds (k / 2) (power + 1) else .ok power

/-- Whether the buffers for a data sector and for the FAT can be allocated. -/
structure MountBuffers where
  dataSector : Bool
  fatCache : Bool

/-- The sizes that mounting leaves in the drive. -/
structure MountSizes where
  sectorSize : ℕ
  sectorsPerCluster : ℕ
  megaSectors : ℕ
  clusterPowerSectors : ℕ
  sectorPower : ℕ
  dataStartSector : ℕ
  lastCluster : ℕ

/-- Mounting returned an error, or `MFS_NO_ERROR`. -/
inductive MountResult where
  | refused (error : MfsError) (d : Drive)
  | mounted (z : MountSizes) (d : Drive)

/-- The type of the drive by its number of clusters. -/
def countedType (clusterCount : ℕ) : FatType :=
  if clusterCount < 4085 then .fat12
  else if clusterCount < 65525 then .fat16
  else .fat32

namespace Bpb

variable (p : Bpb)

/-- The cluster count with its two divisions. -/
def countClusters : Except Trap ℕ := do
  let rootDirSectors ← divide (p.rootEntries * dirEntrySize + (p.sectorSize - 1)) p.sectorSize
  let dataSectors := (p.megaSectors + (2 ^ 32 -
    (p.reservedSectors + p.numberOfFat * p.fatSize + rootDirSectors) % 2 ^ 32)) % 2 ^ 32
  divide dataSectors p.sectorsPerCluster

/-- `DATA_START_SECTOR` of a drive of type `t`. -/
def findDataStart (t : FatType) : Except Trap ℕ :=
  if t = .fat32 then .ok ((p.reservedSectors + p.fatSize32 * p.numberOfFat) % 2 ^ 32)
  else do
    let rootSectors ← divide p.rootEntries (p.sectorSize / dirEntrySize)
    return (p.reservedSectors + p.sectorsPerFat * p.numberOfFat + rootSectors) % 2 ^ 32

end Bpb

/-- The drive with the sizes of the boot sector, before any transfer. -/
def mountStart (boot : ℕ → Byte) (d : Drive) : Drive :=
  { d with vol := (readBpb boot).volume d.vol, freeCount := fsiUnknown }

/-- The drive with the FAT cache set up, after the transfers left it as `d`. -/
def mountedDrive (cfg : MfsConfig) (boot : ℕ → Byte) (d : Drive) : Drive :=
  { d with
    vol := { d.vol with fatCacheSize := cfg.cacheSize (readBpb boot).tableSize }
    fatCacheStart := 2 ^ 32 - 1
    fatCacheDirty := false }

/-- The part of `MFS_Mount_drive_internal` behind the two loops. -/
def mountBuffers (cfg : MfsConfig) (mem : MountBuffers) (boot : ℕ → Byte) (d : Drive)
    (clusterCount clusterPower sectorPower : ℕ) : Except Trap MountResult :=
  let p := readBpb boot
  if mem.dataSector = false then .ok (.refused .insufficientMemory (mountStart boot d))
  else do
    let start ← p.findDataStart (countedType clusterCount)
    let r := mountFat32 p (mountStart boot d)
    let clusters ← divide ((p.megaSectors + (2 ^ 32 - start)) % 2 ^ 32) p.sectorsPerCluster
    if r.1 ≠ .noError then .ok (.refused r.1 r.2)
    else if mem.fatCache = false then .ok (.refused .insufficientMemory r.2)
    else .ok (.mounted
      { sectorSize := p.sectorSize
        sectorsPerCluster := p.sectorsPerCluster
        megaSectors := p.megaSectors
        clusterPowerSectors := clusterPower
        sectorPower := sectorPower
        dataStartSector := start
        lastCluster := (clusters + 1) % 2 ^ 32 }
      (mountedDrive cfg boot r.2))

/-- `MFS_Mount_drive_internal` on the boot sector in the directory buffer, with its traps. -/
def mfsMountDrive (rounds : ℕ) (cfg : MfsConfig) (mem : MountBuffers) (boot : ℕ → Byte)
    (d : Drive) : Except Trap MountResult :=
  if boot 0 ≠ 0xEB#8 ∧ boot 0 ≠ 0xE9#8 then .ok (.refused .notADosDisk d)
  else do
    let clusterCount ← (readBpb boot).countClusters
    let clusterPower ← shiftPower rounds (readBpb boot).sectorsPerCluster 0
    let sectorPower ← shiftPower rounds (readBpb boot).sectorSize 0
    mountBuffers cfg mem boot d clusterCount clusterPower sectorPower

variable {cfg : MfsConfig} {mem : MountBuffers} {boot : ℕ → Byte} {d d' : Drive} {rounds : ℕ}
  {z : MountSizes}

/-! ## Divisions and shifts -/

theorem divide_zero (x : ℕ) : divide x 0 = .error .divideByZero := rfl

theorem divide_of_ne {y : ℕ} (h : y ≠ 0) (x : ℕ) : divide x y = .ok (x / y) := if_neg h

/-- Shifting zero never brings out a bit. -/
theorem shiftPower_zero (rounds power : ℕ) : shiftPower rounds 0 power = .error .endless := by
  induction rounds generalizing power with
  | zero => rfl
  | succ rounds ih => exact ih (power + 1)

theorem shiftPower_of_pos {k : ℕ} (hpos : 0 < k) (hlt : k < 2 ^ rounds) (power : ℕ) :
    ∃ v, shiftPower rounds k power = .ok v := by
  induction rounds generalizing k power with
  | zero => omega
  | succ rounds ih =>
    rw [shiftPower]
    split
    · exact ih (by omega) (by rw [Nat.pow_succ] at hlt; omega) (power + 1)
    · exact ⟨power, rfl⟩

/-! ## The closed form -/

/-- The sizes of the fields that mounting reads. -/
structure Bpb.InRange (p : Bpb) : Prop where
  sectorSize : p.sectorSize < 2 ^ 16
  sectorsPerCluster : p.sectorsPerCluster < 2 ^ 8
  reservedSectors : p.reservedSectors < 2 ^ 16
  numberOfFat : p.numberOfFat < 2 ^ 8
  rootEntries : p.rootEntries < 2 ^ 16
  megaSectors : p.megaSectors < 2 ^ 32
  sectorsPerFat : p.sectorsPerFat < 2 ^ 16

theorem mqxDtohs_lt (b : ℕ → Byte) (pos : ℕ) : (mqxDtohs b pos).toNat < 2 ^ 16 := by
  have hlow := (b pos).isLt
  have hhigh := (b (pos + 1)).isLt
  rw [mqxDtohs_toNat]
  omega

theorem readBpb_inRange (boot : ℕ → Byte) : (readBpb boot).InRange where
  sectorSize := mqxDtohs_lt boot 11
  sectorsPerCluster := (boot 13).isLt
  reservedSectors := mqxDtohs_lt boot 14
  numberOfFat := (boot 16).isLt
  rootEntries := mqxDtohs_lt boot 17
  megaSectors := by
    unfold readBpb
    split
    · exact (mqxDtohs_lt boot 19).trans (by decide)
    · exact (mqxDtohl boot 32).isLt
  sectorsPerFat := mqxDtohs_lt boot 22

namespace Bpb

variable {p : Bpb}

theorem countClusters_of_ne (hs : p.sectorSize ≠ 0) (hc : p.sectorsPerCluster ≠ 0) :
    p.countClusters = .ok p.clusterCount := by
  rw [countClusters, divide_of_ne hs]
  exact divide_of_ne hc _

theorem countClusters_of_zero (h : p.sectorSize = 0 ∨ p.sectorsPerCluster = 0) :
    p.countClusters = .error .divideByZero := by
  by_cases hs : p.sectorSize = 0
  · rw [countClusters, hs]
    rfl
  · have hc : p.sectorsPerCluster = 0 := h.resolve_left hs
    rw [countClusters, divide_of_ne hs, hc]
    rfl

/-- No root directory entry fits into a sector of less than 32 bytes. -/
theorem findDataStart_eq : p.findDataStart p.fatType =
    if p.fatType ≠ .fat32 ∧ p.sectorSize < dirEntrySize then .error .divideByZero
    else .ok p.dataStartSector := by
  by_cases ht : p.fatType = .fat32
  · rw [findDataStart, if_pos ht, if_neg (fun h => h.1 ht), dataStartSector, if_pos ht]
  · by_cases hs : p.sectorSize < dirEntrySize
    · rw [findDataStart, if_neg ht, if_pos ⟨ht, hs⟩, Nat.div_eq_of_lt hs]
      rfl
    · rw [findDataStart, if_neg ht, if_neg (fun h => hs h.2), dataStartSector, if_neg ht,
        divide_of_ne]
      · rfl
      · exact (Nat.div_pos (not_lt.mp hs) (by decide)).ne'

end Bpb

/-- The first byte is that of a jump, all that is checked of a boot sector. -/
def HasJump (boot : ℕ → Byte) : Prop := boot 0 = 0xEB#8 ∨ boot 0 = 0xE9#8

theorem mfsMountDrive_of_noJump (h : ¬HasJump boot) :
    mfsMountDrive rounds cfg mem boot d = .ok (.refused .notADosDisk d) :=
  if_pos (not_or.mp h)

theorem mfsMountDrive_of_zero (hj : HasJump boot)
    (h : (readBpb boot).sectorSize = 0 ∨ (readBpb boot).sectorsPerCluster = 0) :
    mfsMountDrive rounds cfg mem boot d = .error .divideByZero := by
  rw [mfsMountDrive, if_neg (fun hn => hj.elim hn.1 hn.2)]
  simp only [Bpb.countClusters_of_zero h]
  rfl

/-- What mounting does once the two divisors are not zero and both loops are left. -/
theorem mfsMountDrive_eq (hj : HasJump boot) (hs : (readBpb boot).sectorSize ≠ 0)
    (hc : (readBpb boot).sectorsPerCluster ≠ 0) {clusterPower sectorPower : ℕ}
    (hcluster : shiftPower rounds (readBpb boot).sectorsPerCluster 0 = .ok clusterPower)
    (hsector : shiftPower rounds (readBpb boot).sectorSize 0 = .ok sectorPower) :
    mfsMountDrive rounds cfg mem boot d =
      if mem.dataSector = false then .ok (.refused .insufficientMemory (mountStart boot d))
      else if (readBpb boot).fatType ≠ .fat32 ∧ (readBpb boot).sectorSize < dirEntrySize then
        .error .divideByZero
      else if (mountFat32 (readBpb boot) (mountStart boot d)).1 ≠ .noError then
        .ok (.refused (mountFat32 (readBpb boot) (mountStart boot d)).1
          (mountFat32 (readBpb boot) (mountStart boot d)).2)
      else if mem.fatCache = false then
        .ok (.refused .insufficientMemory (mountFat32 (readBpb boot) (mountStart boot d)).2)
      else .ok (.mounted
        { sectorSize := (readBpb boot).sectorSize
          sectorsPerCluster := (readBpb boot).sectorsPerCluster
          megaSectors := (readBpb boot).megaSectors
          clusterPowerSectors := clusterPower
          sectorPower := sectorPower
          dataStartSector := (readBpb boot).dataStartSector
          lastCluster := (readBpb boot).lastCluster }
        (mountedDrive cfg boot (mountFat32 (readBpb boot) (mountStart boot d)).2)) := by
  have hjump : ¬(boot 0 ≠ 0xEB#8 ∧ boot 0 ≠ 0xE9#8) := fun hn => hj.elim hn.1 hn.2
  have htype : countedType (readBpb boot).clusterCount = (readBpb boot).fatType := rfl
  rw [mfsMountDrive, if_neg hjump, Bpb.countClusters_of_ne hs hc, hcluster, hsector]
  change mountBuffers cfg mem boot d _ clusterPower sectorPower = _
  rw [mountBuffers, htype, Bpb.findDataStart_eq]
  by_cases hdata : mem.dataSector = false
  · rw [if_pos hdata, if_pos hdata]
  · rw [if_neg hdata, if_neg hdata]
    by_cases htrap : (readBpb boot).fatType ≠ .fat32 ∧ (readBpb boot).sectorSize < dirEntrySize
    · rw [if_pos htrap, if_pos htrap]
      rfl
    · rw [if_neg htrap, if_neg htrap]
      simp only [Bind.bind, Except.bind, divide_of_ne hc]
      rfl

theorem mfsMountDrive_ok {r : MountResult} (h : mfsMountDrive rounds cfg mem boot d = .ok r)
    (hj : HasJump boot) : (readBpb boot).sectorSize ≠ 0 ∧ (readBpb boot).sectorsPerCluster ≠ 0 ∧
      ∃ clusterPower sectorPower,
        shiftPower rounds (readBpb boot).sectorsPerCluster 0 = .ok clusterPower ∧
          shiftPower rounds (readBpb boot).sectorSize 0 = .ok sectorPower := by
  by_cases hzero : (readBpb boot).sectorSize = 0 ∨ (readBpb boot).sectorsPerCluster = 0
  · rw [mfsMountDrive_of_zero hj hzero] at h
    cases h
  · obtain ⟨hs, hc⟩ := not_or.mp hzero
    rw [mfsMountDrive, if_neg (fun hn => hj.elim hn.1 hn.2)] at h
    obtain ⟨_, _, hrest⟩ := except_bind_ok h
    obtain ⟨clusterPower, hcluster, hrest⟩ := except_bind_ok hrest
    obtain ⟨sectorPower, hsector, _⟩ := except_bind_ok hrest
    exact ⟨hs, hc, clusterPower, sectorPower, hcluster, hsector⟩

/-- A drive that is mounted is the one of `mfsMountDriveInternal`, and its sizes are those of
the boot sector. -/
theorem mfsMountDrive_mounted (h : mfsMountDrive rounds cfg mem boot d = .ok (.mounted z d')) :
    (HasJump boot ∧ (readBpb boot).sectorSize ≠ 0 ∧ (readBpb boot).sectorsPerCluster ≠ 0 ∧
      mem.dataSector = true ∧
      ((readBpb boot).fatType = .fat32 ∨ dirEntrySize ≤ (readBpb boot).sectorSize) ∧
      (mountFat32 (readBpb boot) (mountStart boot d)).1 = .noError ∧ mem.fatCache = true) ∧
    z.sectorSize = (readBpb boot).sectorSize ∧
    z.sectorsPerCluster = (readBpb boot).sectorsPerCluster ∧
    z.megaSectors = (readBpb boot).megaSectors ∧
    z.dataStartSector = (readBpb boot).dataStartSector ∧
    z.lastCluster = (readBpb boot).lastCluster ∧
    mfsMountDriveInternal cfg boot d = (.noError, d') := by
  by_cases hj : HasJump boot
  swap
  · rw [mfsMountDrive_of_noJump hj] at h
    cases h
  obtain ⟨hs, hc, clusterPower, sectorPower, hcluster, hsector⟩ := mfsMountDrive_ok h hj
  rw [mfsMountDrive_eq hj hs hc hcluster hsector] at h
  by_cases hdata : mem.dataSector = false
  · rw [if_pos hdata] at h
    cases h
  by_cases htrap : (readBpb boot).fatType ≠ .fat32 ∧ (readBpb boot).sectorSize < dirEntrySize
  · rw [if_neg hdata, if_pos htrap] at h
    cases h
  by_cases herr : (mountFat32 (readBpb boot) (mountStart boot d)).1 = .noError
  swap
  · rw [if_neg hdata, if_neg htrap, if_pos herr] at h
    cases h
  by_cases hcache : mem.fatCache = false
  · rw [if_neg hdata, if_neg htrap, if_neg (not_not.mpr herr), if_pos hcache] at h
    cases h
  rw [if_neg hdata, if_neg htrap, if_neg (not_not.mpr herr), if_neg hcache] at h
  obtain ⟨rfl, rfl⟩ := MountResult.mounted.inj (Except.ok.inj h)
  have htype : (readBpb boot).fatType = .fat32 ∨ dirEntrySize ≤ (readBpb boot).sectorSize := by
    by_contra hnot
    obtain ⟨ht, hsize⟩ := not_or.mp hnot
    exact htrap ⟨ht, not_le.mp hsize⟩
  refine ⟨⟨hj, hs, hc, by simpa using hdata, htype, herr, by simpa using hcache⟩, rfl, rfl, rfl,
    rfl, rfl, ?_⟩
  rw [mfsMountDriveInternal, if_neg (fun hn => hj.elim hn.1 hn.2)]
  exact if_pos herr

/-! ## Boot sectors that mount safely -/

/-- The sizes of a drive all of whose clusters are on a device of `deviceSectors` sectors. A
drive whose last cluster is below `CLUSTER_MIN_GOOD` has no clusters. -/
structure MountSizes.Sound (z : MountSizes) (deviceSectors : ℕ) : Prop where
  sectorSize : ∃ k, z.sectorSize = 2 ^ k
  sectorsPerCluster : ∃ k, z.sectorsPerCluster = 2 ^ k
  dataStart : z.dataStartSector ≤ z.megaSectors
  lastCluster : clusterMinGood ≤ z.lastCluster →
    (z.lastCluster - clusterMinGood) * z.sectorsPerCluster + z.dataStartSector +
      z.sectorsPerCluster ≤ deviceSectors

/-- Mounting returns, and the sizes of a drive it mounts are sound. -/
structure MountsSafely (cfg : MfsConfig) (mem : MountBuffers) (boot : ℕ → Byte) (d : Drive)
    (deviceSectors : ℕ) : Prop where
  returns : ∃ rounds r, mfsMountDrive rounds cfg mem boot d = .ok r
  sound : ∀ rounds z d', mfsMountDrive rounds cfg mem boot d = .ok (.mounted z d') →
    z.Sound deviceSectors

namespace Bpb

variable (p : Bpb)

/-- The sectors in front of the data area. -/
def systemSectors : ℕ :=
  if p.fatType = .fat32 then (p.reservedSectors + p.fatSize32 * p.numberOfFat) % 2 ^ 32
  else p.reservedSectors + p.sectorsPerFat * p.numberOfFat +
    p.rootEntries / (p.sectorSize / dirEntrySize)

/-- The boot sectors of drives whose areas fit. On a FAT12 or FAT16 drive with a table size in
two bytes the count of clusters has made sure of it. -/
structure Fits (deviceSectors : ℕ) : Prop where
  sectorSize : ∃ k, p.sectorSize = 2 ^ k
  sectorsPerCluster : ∃ k, p.sectorsPerCluster = 2 ^ k
  system : p.fatType ≠ .fat32 ∧ p.sectorsPerFat ≠ 0 ∨ p.systemSectors ≤ p.megaSectors
  clusters : clusterMinGood ≤ ((p.megaSectors - p.systemSectors) / p.sectorsPerCluster + 1) % 2 ^ 32 →
    p.systemSectors + (p.megaSectors - p.systemSectors) / p.sectorsPerCluster *
      p.sectorsPerCluster ≤ deviceSectors

end Bpb

/-- Why a boot sector whose sizes have been computed is not mounted: no memory is left, or the
version of a FAT32 drive is not known, or its information sector cannot be updated. -/
def MountRefused (mem : MountBuffers) (p : Bpb) (d : Drive) : Prop :=
  mem.fatCache = false ∨ p.fatType = .fat32 ∧ (0 < p.fsVer ∨ p.megaSectors < fsinfoSector ∨
    d.ioFault d.ioCount ≠ none ∨ d.vol.readOnly = false ∧ d.ioFault (d.ioCount + 1) ≠ none)

theorem mountFsinfo_noError : (mountFsinfo d).1 = .noError ↔ fsinfoSector ≤ d.vol.megaSectors ∧
    d.ioFault d.ioCount = none ∧
    (d.vol.readOnly = false → d.ioFault (d.ioCount + 1) = none) := by
  have htake : ∀ b (d₁ : Drive), (takeFreeCount b d₁).vol = d₁.vol ∧
      (takeFreeCount b d₁).ioFault = d₁.ioFault ∧ (takeFreeCount b d₁).ioCount = d₁.ioCount := by
    intro b d₁
    unfold takeFreeCount
    split <;> exact ⟨rfl, rfl, rfl⟩
  by_cases hmega : fsinfoSector ≤ d.vol.megaSectors
  · have hfirst : ¬fsinfoSector + 1 - 1 > d.vol.megaSectors := by omega
    cases hread : d.ioFault d.ioCount with
    | none =>
      obtain ⟨b, hr⟩ : ∃ b, mfsReadDeviceSectors d fsinfoSector 1 (fun _ => 0) 0 =
          (.noError, b, { d with ioCount := d.ioCount + 1 }) := by
        rw [mfsReadDeviceSectors, if_neg hfirst, hread]
        exact ⟨_, rfl⟩
      obtain ⟨hvol, hfault, hcount⟩ := htake b { d with ioCount := d.ioCount + 1 }
      rw [mountFsinfo, hr]
      by_cases hro : d.vol.readOnly = false
      · have hwritable : ¬(takeFreeCount b { d with ioCount := d.ioCount + 1 }).vol.readOnly = true := by
          rw [hvol]
          simpa using hro
        have hsector : ¬fsinfoSector >
            (takeFreeCount b { d with ioCount := d.ioCount + 1 }).vol.megaSectors := by
          rw [hvol]
          exact not_lt.mpr hmega
        rw [if_pos ⟨hro, rfl⟩, mfsWriteDeviceSectors, if_neg hwritable, if_neg hsector, hfault, hcount]
        cases hwrite : d.ioFault (d.ioCount + 1) with
        | none => exact iff_of_true rfl ⟨hmega, rfl, fun _ => rfl⟩
        | some junk => exact iff_of_false (by simp) (fun h => by simpa using h.2.2 hro)
      · rw [if_neg (fun h => hro h.1)]
        exact iff_of_true rfl ⟨hmega, rfl, fun h => absurd h hro⟩
    | some junk =>
      have herr : (mfsReadDeviceSectors d fsinfoSector 1 (fun _ => 0) 0).1 = .readFault := by
        rw [mfsReadDeviceSectors, if_neg hfirst, hread]
      rw [mountFsinfo, if_neg (fun h => absurd (herr.symm.trans h.2) (by decide)), herr]
      exact iff_of_false (by simp) (fun h => by simpa using h.2.1)
  · have herr : (mfsReadDeviceSectors d fsinfoSector 1 (fun _ => 0) 0).1 = .sectorNotFound := by
      rw [mfsReadDeviceSectors, if_pos (by omega)]
    rw [mountFsinfo, if_neg (fun h => absurd (herr.symm.trans h.2) (by decide)), herr]
    exact iff_of_false (by simp) (fun h => hmega h.1)

theorem mountFat32_noError {p : Bpb} : (mountFat32 p d).1 = .noError ↔
    ¬(p.fatType = .fat32 ∧ (0 < p.fsVer ∨ d.vol.megaSectors < fsinfoSector ∨
      d.ioFault d.ioCount ≠ none ∨
      d.vol.readOnly = false ∧ d.ioFault (d.ioCount + 1) ≠ none)) := by
  by_cases ht : p.fatType = .fat32
  · by_cases hver : 0 < p.fsVer
    · rw [mountFat32, if_pos ht, if_pos hver]
      exact iff_of_false (by simp) (fun h => h ⟨ht, Or.inl hver⟩)
    · rw [mountFat32, if_pos ht, if_neg hver, mountFsinfo_noError]
      constructor
      · rintro ⟨hmega, hread, hwrite⟩ ⟨-, hver' | hmega' | hread' | ⟨hro, hwrite'⟩⟩
        · exact hver hver'
        · omega
        · exact hread' hread
        · exact hwrite' (hwrite hro)
      · intro h
        have hnot := fun hx => h ⟨ht, Or.inr hx⟩
        refine ⟨?_, ?_, ?_⟩
        · by_contra hmega
          exact hnot (Or.inl (not_le.mp hmega))
        · by_contra hread
          exact hnot (Or.inr (Or.inl hread))
        · intro hro
          by_contra hwrite
          exact hnot (Or.inr (Or.inr ⟨hro, hwrite⟩))
  · rw [mountFat32, if_neg ht]
    exact iff_of_true rfl (fun h => ht h.1)

namespace Bpb

variable {p : Bpb}

/-- The start of the data area does not wrap around on a drive without a FAT32 table. -/
theorem dataStartSector_eq (h : p.InRange) : p.dataStartSector = p.systemSectors := by
  have hreserved := h.reservedSectors
  have hroot : p.rootEntries / (p.sectorSize / dirEntrySize) < 2 ^ 16 :=
    lt_of_le_of_lt (Nat.div_le_self _ _) h.rootEntries
  have htable : p.sectorsPerFat * p.numberOfFat < 2 ^ 16 * 2 ^ 8 :=
    Nat.mul_lt_mul'' h.sectorsPerFat h.numberOfFat
  rw [dataStartSector, systemSectors]
  split
  · rfl
  · exact Nat.mod_eq_of_lt (by omega)

/-- The count of a FAT12 or FAT16 drive is so low that its subtraction has not wrapped
around. -/
theorem systemSectors_le (h : p.InRange) (hs : ∃ k, p.sectorSize = 2 ^ k)
    (hsize : dirEntrySize ≤ p.sectorSize) (hc : p.sectorsPerCluster ≠ 0)
    (ht : p.fatType ≠ .fat32) (hf : p.sectorsPerFat ≠ 0) : p.systemSectors ≤ p.megaSectors := by
  obtain ⟨m, hm⟩ : dirEntrySize ∣ p.sectorSize := by
    obtain ⟨k, hk⟩ := hs
    rw [hk] at hsize ⊢
    exact (Nat.pow_dvd_pow_iff_le_right (by decide : 1 < 2)).mpr
      ((Nat.pow_le_pow_iff_right (by decide : 1 < 2)).mp hsize : 5 ≤ k)
  have hm0 : 0 < m := by
    rcases Nat.eq_zero_or_pos m with rfl | hpos
    · rw [Nat.mul_zero] at hm
      rw [hm] at hsize
      exact absurd hsize (by decide)
    · exact hpos
  have hround : p.rootEntries / (p.sectorSize / dirEntrySize) ≤ p.rootDirSectors := by
    rw [rootDirSectors, hm, Nat.mul_div_cancel_left _ (by decide)]
    calc p.rootEntries / m = p.rootEntries * dirEntrySize / (dirEntrySize * m) := by
          rw [Nat.mul_comm dirEntrySize m, Nat.mul_div_mul_right _ _ (by decide)]
      _ ≤ _ := Nat.div_le_div_right (Nat.le_add_right _ _)
  have hroot : p.rootDirSectors < 2 ^ 22 := by
    have hentries := h.rootEntries
    have hsector := h.sectorSize
    apply lt_of_le_of_lt (Nat.div_le_self _ _)
    unfold dirEntrySize
    omega
  have hreserved := h.reservedSectors
  have hmega := h.megaSectors
  have htable : p.sectorsPerFat * p.numberOfFat < 2 ^ 16 * 2 ^ 8 :=
    Nat.mul_lt_mul'' h.sectorsPerFat h.numberOfFat
  have hcount : p.dataSectors < 65525 * 2 ^ 8 := by
    have hlow : p.clusterCount < 65525 := by
      by_contra hnot
      exact ht (by rw [fatType, if_neg (by omega), if_neg hnot])
    calc p.dataSectors < 65525 * p.sectorsPerCluster :=
          (Nat.div_lt_iff_lt_mul (Nat.pos_of_ne_zero hc)).mp hlow
      _ ≤ 65525 * 2 ^ 8 := Nat.mul_le_mul_left _ h.sectorsPerCluster.le
  rw [dataSectors, fatSize, if_neg hf, Nat.mul_comm p.numberOfFat] at hcount
  rw [systemSectors, if_neg ht]
  omega

/-- The end of the last cluster is that of the whole clusters behind the start of the data. -/
theorem lastCluster_end {q c start : ℕ} (hq : q < 2 ^ 32)
    (hlast : clusterMinGood ≤ (q + 1) % 2 ^ 32) :
    ((q + 1) % 2 ^ 32 - clusterMinGood) * c + start + c = start + q * c := by
  have hno : (q + 1) % 2 ^ 32 = q + 1 := by
    unfold clusterMinGood at hlast
    omega
  obtain ⟨e, rfl⟩ : ∃ e, q = e + 1 := ⟨q - 1, by unfold clusterMinGood at hlast; omega⟩
  rw [hno, show e + 1 + 1 - clusterMinGood = e by unfold clusterMinGood; omega]
  ring

theorem lastCluster_eq (h : p.InRange) (hstart : p.systemSectors ≤ p.megaSectors) :
    p.lastCluster =
      ((p.megaSectors - p.systemSectors) / p.sectorsPerCluster + 1) % 2 ^ 32 := by
  have hmega := h.megaSectors
  rw [lastCluster, dataStartSector_eq h]
  rw [show (p.megaSectors + (2 ^ 32 - p.systemSectors)) % 2 ^ 32 =
    p.megaSectors - p.systemSectors by omega]

end Bpb

/-- The sizes of the boot sector are sound if and only if its areas fit. -/
theorem MountSizes.sound_iff {p : Bpb} (h : p.InRange) (hc : p.sectorsPerCluster ≠ 0)
    (htype : p.fatType = .fat32 ∨ dirEntrySize ≤ p.sectorSize)
    (hsize : z.sectorSize = p.sectorSize) (hcluster : z.sectorsPerCluster = p.sectorsPerCluster)
    (hmega : z.megaSectors = p.megaSectors) (hstart : z.dataStartSector = p.dataStartSector)
    (hlast : z.lastCluster = p.lastCluster) (n : ℕ) : z.Sound n ↔ p.Fits n := by
  have hq : (p.megaSectors - p.systemSectors) / p.sectorsPerCluster < 2 ^ 32 :=
    lt_of_le_of_lt ((Nat.div_le_self _ _).trans (Nat.sub_le _ _)) h.megaSectors
  rw [Bpb.dataStartSector_eq h] at hstart
  constructor
  · intro x
    have hle : p.systemSectors ≤ p.megaSectors := hstart ▸ hmega ▸ x.dataStart
    refine ⟨hsize ▸ x.sectorSize, hcluster ▸ x.sectorsPerCluster, Or.inr hle, fun hmin => ?_⟩
    have hend := x.lastCluster
    rw [hlast, hstart, hcluster, Bpb.lastCluster_eq h hle] at hend
    exact (Bpb.lastCluster_end hq hmin).symm.trans_le (hend hmin)
  · intro x
    have hle : p.systemSectors ≤ p.megaSectors := by
      rcases x.system with ⟨ht, hf⟩ | hle
      · exact Bpb.systemSectors_le h x.sectorSize (htype.resolve_left ht) hc ht hf
      · exact hle
    refine ⟨hsize ▸ x.sectorSize, hcluster ▸ x.sectorsPerCluster, ?_, ?_⟩
    · rw [hstart, hmega]
      exact hle
    · rw [hlast, hstart, hcluster, Bpb.lastCluster_eq h hle]
      intro hmin
      exact (Bpb.lastCluster_end hq hmin).trans_le (x.clusters hmin)

/-- Mounting is safe for the boot sectors without a jump in the first byte, which are refused,
and for those whose sector and cluster sizes are not zero and, on a FAT12 or FAT16 drive, whose
sectors have room for a directory entry, if mounting is then refused or the areas fit. -/
theorem mount_survives (cfg : MfsConfig) (mem : MountBuffers) (boot : ℕ → Byte) (d : Drive)
    (deviceSectors : ℕ) : MountsSafely cfg mem boot d deviceSectors ↔
      ¬HasJump boot ∨ (readBpb boot).sectorSize ≠ 0 ∧ (readBpb boot).sectorsPerCluster ≠ 0 ∧
        (mem.dataSector = false ∨
          ((readBpb boot).fatType = .fat32 ∨ dirEntrySize ≤ (readBpb boot).sectorSize) ∧
            (MountRefused mem (readBpb boot) d ∨ (readBpb boot).Fits deviceSectors)) := by
  have hrange := readBpb_inRange boot
  have hfat32 : ∀ (herr : (mountFat32 (readBpb boot) (mountStart boot d)).1 = .noError)
      (hcache : mem.fatCache = true), ¬MountRefused mem (readBpb boot) d := by
    rintro herr hcache (hfull | hrefused)
    · exact absurd (hcache.symm.trans hfull) (by decide)
    · exact mountFat32_noError.mp herr hrefused
  by_cases hj : HasJump boot
  swap
  · refine iff_of_true ⟨⟨0, _, mfsMountDrive_of_noJump hj⟩, fun rounds z d' h => ?_⟩ (Or.inl hj)
    exact absurd (mfsMountDrive_mounted h).1.1 hj
  constructor
  · intro m
    obtain ⟨rounds, r, hr⟩ := m.returns
    obtain ⟨hs, hc, clusterPower, sectorPower, hcluster, hsector⟩ := mfsMountDrive_ok hr hj
    rw [mfsMountDrive_eq hj hs hc hcluster hsector] at hr
    refine Or.inr ⟨hs, hc, ?_⟩
    by_cases hdata : mem.dataSector = false
    · exact Or.inl hdata
    have htype : (readBpb boot).fatType = .fat32 ∨ dirEntrySize ≤ (readBpb boot).sectorSize := by
      by_contra hnot
      obtain ⟨ht, hsize⟩ := not_or.mp hnot
      rw [if_neg hdata, if_pos ⟨ht, not_le.mp hsize⟩] at hr
      cases hr
    have hno : ¬((readBpb boot).fatType ≠ .fat32 ∧ (readBpb boot).sectorSize < dirEntrySize) :=
      fun hn => htype.elim hn.1 (not_le.mpr hn.2)
    refine Or.inr ⟨htype, ?_⟩
    by_cases hrefused : MountRefused mem (readBpb boot) d
    · exact Or.inl hrefused
    · right
      obtain ⟨hcache, hfsinfo⟩ := not_or.mp hrefused
      have hmounted := @mfsMountDrive_eq cfg mem boot d rounds hj hs hc clusterPower sectorPower
        hcluster hsector
      rw [if_neg hdata, if_neg hno, if_neg (not_not.mpr (mountFat32_noError.mpr hfsinfo)),
        if_neg hcache] at hmounted
      exact (MountSizes.sound_iff hrange hc htype rfl rfl rfl rfl rfl _).mp
        (m.sound rounds _ _ hmounted)
  · intro h
    obtain ⟨hs, hc, hrest⟩ := h.resolve_left (not_not.mpr hj)
    constructor
    · obtain ⟨clusterPower, hcluster⟩ := @shiftPower_of_pos 16 _
        (Nat.pos_of_ne_zero hc) (hrange.sectorsPerCluster.trans (by decide)) 0
      obtain ⟨sectorPower, hsector⟩ := shiftPower_of_pos (Nat.pos_of_ne_zero hs) hrange.sectorSize 0
      refine ⟨16, ?_⟩
      rw [mfsMountDrive_eq hj hs hc hcluster hsector]
      rcases hrest with hfull | ⟨htype, -⟩
      · exact ⟨_, if_pos hfull⟩
      · rw [if_neg (c := _ ∧ _) (fun hn => htype.elim hn.1 (not_le.mpr hn.2))]
        split
        · exact ⟨_, rfl⟩
        · split
          · exact ⟨_, rfl⟩
          · split <;> exact ⟨_, rfl⟩
    · intro rounds z d' hmounted
      obtain ⟨⟨-, -, -, hdata, htype, herr, hcache⟩, hsize, hcluster, hmega, hstart, hlast, -⟩ :=
        mfsMountDrive_mounted hmounted
      rcases hrest with hfull | ⟨-, hrefused | hfits⟩
      · exact absurd (hdata.symm.trans hfull) (by decide)
      · exact absurd hrefused (hfat32 herr hcache)
      · exact (MountSizes.sound_iff hrange hc htype hsize hcluster hmega hstart hlast _).mpr hfits

/-- A drive that was never mounted, on an empty device. -/
def newDrive : Drive where
  vol := ⟨.fat12, 0, 0, 0, 0, 0, 0, 0, false⟩
  fatCache := fun _ => 0
  fatCacheStart := 0
  fatCacheDirty := false
  freeCount := 0
  device := fun _ _ => 0
  ioFault := fun _ => none
  ioCount := 0

/-- Nothing but the jump. -/
def blankBoot : ℕ → Byte := putBytes (fun _ => 0) 0 [0xEB]

/-- A FAT12 drive of 100 sectors with three sectors a cluster. -/
def threeSectorBoot : ℕ → Byte :=
  putBytes (fun _ => 0) 0 [0xEB, 0, 0, 0, 0, 0, 0, 0, 0, 0, 0, 0, 2, 3, 1, 0, 1, 16, 0, 100, 0, 0xF8,
    1, 0]

/-- The first sector size is zero; the second drive is mounted, and its clusters cannot be
found by shifts. -/
theorem mount_survives_fails :
    ¬MountsSafely defaultConfig ⟨true, true⟩ blankBoot newDrive 100 ∧
      ¬MountsSafely defaultConfig ⟨true, true⟩ threeSectorBoot newDrive 100 := by
  constructor
  · intro m
    obtain ⟨rounds, r, hr⟩ := m.returns
    rw [mfsMountDrive_of_zero (Or.inl rfl) (Or.inl (by decide))] at hr
    cases hr
  · intro m
    have hcluster : shiftPower 16 (readBpb threeSectorBoot).sectorsPerCluster 0 = .ok 0 := by decide
    have hsector : shiftPower 16 (readBpb threeSectorBoot).sectorSize 0 = .ok 9 := by decide
    have hmounted := m.sound 16 _ _
      (mfsMountDrive_eq (Or.inl rfl) (by decide) (by decide) hcluster hsector)
    obtain ⟨k, hk⟩ := hmounted.sectorsPerCluster
    have hthree : 3 = 2 ^ k := hk
    rcases k with _ | _ | k
    · exact absurd hthree (by decide)
    · exact absurd hthree (by decide)
    · rw [Nat.pow_succ, Nat.pow_succ] at hthree
      omega

end Mqx.Mfs
