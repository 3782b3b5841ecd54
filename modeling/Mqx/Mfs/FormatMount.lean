import Mathlib.Tactic.Ring
import Mqx.Mfs.DataSector
import Mqx.Mfs.Format

/-!
# What mounting makes of a formatted drive

The boot sector that formatting leaves in the buffer, read back field by field, and the
clusters that mounting counts in it.
-/

namespace Mqx.Mfs

variable {cfg : MfsConfig} {p : FormatData} {x : FormatPlan} {d d' : Drive}
  {boot boot' : ℕ → Byte}

/-! ## Bytes and words -/

theorem mqxDtohs_toNat (b : ℕ → Byte) (pos : ℕ) :
    (mqxDtohs b pos).toNat = (b pos).toNat + 256 * (b (pos + 1)).toNat := by
  have hlow := (b pos).isLt
  have hhigh := (b (pos + 1)).isLt
  have hshift : ((b (pos + 1)).setWidth 32 <<< 8).toNat = (b (pos + 1)).toNat <<< 8 := by
    rw [BitVec.toNat_shiftLeft, BitVec.toNat_setWidth, Nat.mod_eq_of_lt (by omega),
      Nat.shiftLeft_eq]
    omega
  rw [mqxDtohs, BitVec.toNat_or, hshift, BitVec.toNat_setWidth, Nat.mod_eq_of_lt (by omega),
    Nat.or_comm, ← Nat.shiftLeft_add_eq_or_of_lt hlow, Nat.shiftLeft_eq]
  omega

theorem mqxDtohl_toNat (b : ℕ → Byte) (pos : ℕ) :
    (mqxDtohl b pos).toNat = (mqxDtohs b pos).toNat + 65536 * (mqxDtohs b (pos + 2)).toNat := by
  have hlow := mqxDtohs_toNat b pos
  have hhigh := mqxDtohs_toNat b (pos + 2)
  have h0 := (b pos).isLt
  have h1 := (b (pos + 1)).isLt
  have h2 := (b (pos + 2)).isLt
  have h3 := (b (pos + 2 + 1)).isLt
  have hsplit : mqxDtohl b pos = mqxDtohs b (pos + 2) <<< 16 ||| mqxDtohs b pos := by
    simp only [mqxDtohl, mqxDtohs, BitVec.shiftLeft_or_distrib]
    rw [← BitVec.shiftLeft_add, BitVec.or_assoc, BitVec.or_comm]
  rw [hsplit, BitVec.toNat_or, BitVec.toNat_shiftLeft, Nat.mod_eq_of_lt (by
    rw [Nat.shiftLeft_eq]
    omega), ← Nat.shiftLeft_add_eq_or_of_lt (by omega), Nat.shiftLeft_eq]
  omega

theorem put16_apply (b : ℕ → Byte) (pos y o : ℕ) : put16 b pos y o =
    if o = pos + 1 then BitVec.ofNat 8 (y >>> 8) else if o = pos then BitVec.ofNat 8 y else b o := by
  simp only [put16, Function.update_apply]

theorem putBytes_of_outside (b : ℕ → Byte) (l : List Byte) {pos o : ℕ}
    (h : o < pos ∨ pos + l.length ≤ o) : putBytes b pos l o = b o :=
  if_neg (by omega)

theorem mqxDtohs_of_bytes {b : ℕ → Byte} {pos y : ℕ} (hlow : b pos = BitVec.ofNat 8 y)
    (hhigh : b (pos + 1) = BitVec.ofNat 8 (y >>> 8)) :
    (mqxDtohs b pos).toNat = y % 2 ^ 16 := by
  rw [mqxDtohs_toNat, hlow, hhigh, BitVec.toNat_ofNat, BitVec.toNat_ofNat,
    Nat.shiftRight_eq_div_pow]
  omega

/-! ## The boot sector read back -/

/-- Mounting reads no byte behind the parameter block. -/
theorem readBpb_congr (h : ∀ o < 64, boot o = boot' o) : readBpb boot = readBpb boot' := by
  have hs : ∀ pos < 63, mqxDtohs boot pos = mqxDtohs boot' pos := by
    intro pos hpos
    rw [mqxDtohs, mqxDtohs, h pos (by omega), h (pos + 1) (by omega)]
  have hl : ∀ pos < 61, mqxDtohl boot pos = mqxDtohl boot' pos := by
    intro pos hpos
    rw [mqxDtohl, mqxDtohl, h pos (by omega), h (pos + 1) (by omega), h (pos + 2) (by omega),
      h (pos + 3) (by omega)]
  simp only [readBpb, hs 11 (by omega), h 13 (by omega), hs 14 (by omega), h 16 (by omega),
    hs 17 (by omega), hs 19 (by omega), hl 32 (by omega), hs 22 (by omega), hl 36 (by omega),
    hs 42 (by omega)]

/-- The sector count a boot sector holds. It is cut to two bytes when the sum with the
hidden sectors, in 32 bits, fits there. -/
def FormatData.recordedSectors (p : FormatData) : ℕ :=
  if (p.numberOfSectors + p.hiddenSectors) % 2 ^ 32 ≤ 0xFFFF then p.numberOfSectors % 2 ^ 16
  else p.numberOfSectors

/-- The parameter block of a drive formatted by the plan `x`. -/
structure Bpb.Holds (cfg : MfsConfig) (p : FormatData) (x : FormatPlan) (q : Bpb) : Prop where
  sectorSize : q.sectorSize = p.bytesPerSector
  sectorsPerCluster : q.sectorsPerCluster = x.row.clusterSize % 2 ^ 8
  reservedSectors : q.reservedSectors = x.reservedSectors % 2 ^ 16
  numberOfFat : q.numberOfFat = cfg.numOfFats
  rootEntries : q.rootEntries = x.row.rootdirSize * (p.bytesPerSector >>> 5) % 2 ^ 16
  megaSectors : q.megaSectors = p.recordedSectors
  sectorsPerFat : q.sectorsPerFat = if x.row.fatType = .fat32 then 0 else x.fatSize % 2 ^ 16
  fatSize32 : x.row.fatType = .fat32 → q.fatSize32 = x.fatSize % 2 ^ 32
  fsVer : x.row.fatType = .fat32 → q.fsVer = 0

theorem mqxDtohl_of_words {b : ℕ → Byte} {pos y : ℕ}
    (hlow : (mqxDtohs b pos).toNat = y % 2 ^ 16)
    (hhigh : (mqxDtohs b (pos + 2)).toNat = (y >>> 16) % 2 ^ 16) :
    (mqxDtohl b pos).toNat = y % 2 ^ 32 := by
  rw [mqxDtohl_toNat, hlow, hhigh, Nat.shiftRight_eq_div_pow]
  omega

/-- The words of the parameter block that all types have. -/
theorem bootCommon_words : (mqxDtohs (bootCommon cfg p x) 11).toNat = p.bytesPerSector % 2 ^ 16 ∧
    (mqxDtohs (bootCommon cfg p x) 14).toNat = x.reservedSectors % 2 ^ 16 ∧
    (mqxDtohs (bootCommon cfg p x) 17).toNat =
      x.row.rootdirSize * (p.bytesPerSector >>> 5) % 2 ^ 16 ∧
    bootCommon cfg p x 13 = BitVec.ofNat 8 x.row.clusterSize ∧
    bootCommon cfg p x 16 = BitVec.ofNat 8 cfg.numOfFats := by
  refine ⟨mqxDtohs_of_bytes ?_ ?_, mqxDtohs_of_bytes ?_ ?_, mqxDtohs_of_bytes ?_ ?_, ?_, ?_⟩ <;>
    by_cases hcut : (p.numberOfSectors + p.hiddenSectors) % 2 ^ 32 ≤ 0xFFFF <;>
    simp only [bootCommon, hcut, put32, put16_apply, Function.update_apply, Nat.reduceAdd,
      Nat.reduceEqDiff, if_true, if_false]

theorem bootCommon_mega :
    (if mqxDtohs (bootCommon cfg p x) 19 ≠ 0 then (mqxDtohs (bootCommon cfg p x) 19).toNat
      else (mqxDtohl (bootCommon cfg p x) 32).toNat) = p.recordedSectors := by
  have hlt := p.numberOfSectors_lt
  rw [FormatData.recordedSectors]
  by_cases hcut : (p.numberOfSectors + p.hiddenSectors) % 2 ^ 32 ≤ 0xFFFF
  · have hshort : (mqxDtohs (bootCommon cfg p x) 19).toNat = p.numberOfSectors % 2 ^ 16 := by
      apply mqxDtohs_of_bytes <;>
        simp only [bootCommon, hcut, put32, put16_apply, Function.update_apply, Nat.reduceAdd,
          Nat.reduceEqDiff, if_true, if_false]
    have hlong : (mqxDtohl (bootCommon cfg p x) 32).toNat = 0 := by
      rw [mqxDtohl_toNat, mqxDtohs_toNat, mqxDtohs_toNat]
      simp only [bootCommon, hcut, put32, put16_apply, Function.update_apply, Nat.reduceAdd,
        Nat.reduceEqDiff, if_true, if_false, putBytes, storeBytes]
      rfl
    rw [if_pos hcut, hlong, ← hshort]
    by_cases hzero : mqxDtohs (bootCommon cfg p x) 19 = 0
    · rw [if_neg (by simpa using hzero), hzero]
      rfl
    · rw [if_pos hzero]
  · have hshort : mqxDtohs (bootCommon cfg p x) 19 = 0 := by
      apply BitVec.eq_of_toNat_eq
      rw [mqxDtohs_toNat]
      simp only [bootCommon, hcut, put32, put16_apply, Function.update_apply, Nat.reduceAdd,
        Nat.reduceEqDiff, if_false, putBytes, storeBytes]
      rfl
    have hlong : (mqxDtohl (bootCommon cfg p x) 32).toNat = p.numberOfSectors % 2 ^ 32 := by
      apply mqxDtohl_of_words <;> apply mqxDtohs_of_bytes <;>
        simp only [bootCommon, hcut, put32, put16_apply, Function.update_apply, Nat.reduceAdd,
          Nat.reduceEqDiff, if_true, if_false]
    rw [if_neg hcut, if_neg (by simpa using hshort), hlong, Nat.mod_eq_of_lt hlt]

/-- The type changes only the size of the table and the bytes from 36 on. -/
theorem bootSector_of_common {o : ℕ} (h : o < 22 ∨ 24 ≤ o ∧ o < 36) :
    bootSector cfg p x o = bootCommon cfg p x o := by
  by_cases ht : x.row.fatType = .fat32
  · simp only [bootSector, if_pos ht]
    rw [putBytes_of_outside _ _ (by omega)]
    simp only [put32, put16_apply, Function.update_apply]
    repeat rw [if_neg (by omega)]
  · simp only [bootSector, if_neg ht]
    rw [putBytes_of_outside _ _ (by omega)]
    simp only [put16_apply, Function.update_apply]
    repeat rw [if_neg (by omega)]

theorem bootSector_sectorsPerFat : (mqxDtohs (bootSector cfg p x) 22).toNat =
    if x.row.fatType = .fat32 then 0 else x.fatSize % 2 ^ 16 := by
  by_cases ht : x.row.fatType = .fat32
  · rw [if_pos ht, mqxDtohs_toNat]
    simp only [bootSector, if_pos ht]
    rw [putBytes_of_outside _ _ (by omega), putBytes_of_outside _ _ (by omega)]
    by_cases hcut : (p.numberOfSectors + p.hiddenSectors) % 2 ^ 32 ≤ 0xFFFF <;>
      simp only [bootCommon, hcut, put32, put16_apply, Function.update_apply, Nat.reduceAdd,
        Nat.reduceEqDiff, if_true, if_false, putBytes, storeBytes] <;> rfl
  · rw [if_neg ht]
    apply mqxDtohs_of_bytes <;> simp only [bootSector, if_neg ht] <;>
      rw [putBytes_of_outside _ _ (by omega)] <;>
      simp only [put16_apply, Function.update_apply, Nat.reduceAdd, Nat.reduceEqDiff, if_true,
        if_false]

theorem bootSector_fat32 (ht : x.row.fatType = .fat32) :
    (mqxDtohl (bootSector cfg p x) 36).toNat = x.fatSize % 2 ^ 32 ∧
      (mqxDtohs (bootSector cfg p x) 42).toNat = 0 := by
  constructor
  · apply mqxDtohl_of_words <;> apply mqxDtohs_of_bytes <;> simp only [bootSector, if_pos ht] <;>
      rw [putBytes_of_outside _ _ (by omega)] <;>
      simp only [put32, put16_apply, Function.update_apply, Nat.reduceAdd, Nat.reduceEqDiff,
        if_true, if_false]
  · rw [mqxDtohs_toNat]
    simp only [bootSector, if_pos ht]
    rw [putBytes_of_outside _ _ (by omega), putBytes_of_outside _ _ (by omega)]
    by_cases hcut : (p.numberOfSectors + p.hiddenSectors) % 2 ^ 32 ≤ 0xFFFF <;>
      simp only [bootCommon, hcut, put32, put16_apply, Function.update_apply, Nat.reduceAdd,
        Nat.reduceEqDiff, if_true, if_false, putBytes, storeBytes] <;> rfl

theorem readBpb_bootSector (cfg : MfsConfig) (p : FormatData) (x : FormatPlan) :
    (readBpb (bootSector cfg p x)).Holds cfg p x := by
  obtain ⟨hsize, hreserved, hroot, hcluster, hfats⟩ := @bootCommon_words cfg p x
  have hword : ∀ pos, pos < 21 ∨ 24 ≤ pos ∧ pos < 35 →
      mqxDtohs (bootSector cfg p x) pos = mqxDtohs (bootCommon cfg p x) pos := by
    intro pos hpos
    rw [mqxDtohs, mqxDtohs, bootSector_of_common (by omega), bootSector_of_common (by omega)]
  have hlong : mqxDtohl (bootSector cfg p x) 32 = mqxDtohl (bootCommon cfg p x) 32 := by
    simp only [mqxDtohl]
    repeat rw [bootSector_of_common (by omega)]
  constructor <;> simp only [readBpb]
  · rw [hword 11 (by omega), hsize, Nat.mod_eq_of_lt p.bytesPerSector_lt]
  · rw [bootSector_of_common (by omega), hcluster, BitVec.toNat_ofNat]
  · rw [hword 14 (by omega), hreserved]
  · rw [bootSector_of_common (by omega), hfats, BitVec.toNat_ofNat,
      Nat.mod_eq_of_lt cfg.numOfFats_lt]
  · rw [hword 17 (by omega), hroot]
  · rw [hword 19 (by omega), hlong, bootCommon_mega]
  · exact bootSector_sectorsPerFat
  · exact fun ht => (bootSector_fat32 ht).1
  · exact fun ht => (bootSector_fat32 ht).2

/-! ## The transfers -/

theorem except_bind_ok {ε α β : Type} {y : Except ε α} {f : α → Except ε β} {b : β}
    (h : y >>= f = .ok b) : ∃ a, y = .ok a ∧ f a = .ok b := by
  cases y with
  | error e => cases h
  | ok a => exact ⟨a, rfl, h⟩

theorem checked_ok {r : MfsError × Drive} (h : checked r = .ok d) :
    r.1 = .noError ∧ r.2 = d := by
  unfold checked at h
  split at h
  · exact ⟨‹_›, by simpa using h⟩
  · cases h

/-- A write that succeeds changes one sector of the device. -/
theorem checked_write_ok {n : ℕ} {buffer : ℕ → Byte}
    (h : checked (mfsWriteDeviceSectors d n 1 buffer) = .ok d') :
    d'.vol = d.vol ∧ n ≤ d.vol.megaSectors ∧ d'.device = storeSectors d n 1 buffer := by
  obtain ⟨hok, rfl⟩ := checked_ok h
  unfold mfsWriteDeviceSectors at hok ⊢
  split at hok
  · cases hok
  · split at hok
    · cases hok
    · split at hok
      · rename_i hro hle _ _
        simp only [hro, hle, if_false]
        exact ⟨rfl, by omega, rfl⟩
      · cases hok

/-- A read that succeeds fills the buffer with the sector. -/
theorem checked_read_ok {n : ℕ} {buffer : ℕ → Byte}
    (h : (mfsReadDeviceSectors d n 1 buffer 0).1 = .noError) {o : ℕ}
    (ho : o < d.vol.sectorSize) : (mfsReadDeviceSectors d n 1 buffer 0).2.1 o = d.device n o := by
  unfold mfsReadDeviceSectors at h ⊢
  split at h
  · cases h
  · split at h
    · rename_i hle _ _
      simp only [hle, if_false]
      rw [storeBytes, if_pos (by omega), Nat.sub_zero, Nat.div_eq_of_lt ho, Nat.mod_eq_of_lt ho,
        Nat.add_zero]
    · cases h

theorem writeSectors_vol {buffer : ℕ → Byte} (n : ℕ) : ∀ {i : ℕ} {d : Drive},
    writeSectors buffer n i d = .ok d' → d'.vol = d.vol := by
  induction n with
  | zero =>
    intro i d h
    cases h
    rfl
  | succ n ih =>
    intro i d h
    obtain ⟨d₁, hwrite, hrest⟩ := except_bind_ok h
    rw [ih hrest, (checked_write_ok hwrite).1]

theorem clearRootCluster_vol (h : clearRootCluster cfg x d = .ok d') : d'.vol = d.vol := by
  unfold clearRootCluster at h
  split at h
  · exact writeSectors_vol _ h
  · cases h
    rfl

theorem writeFatHeads_vol {buffer : ℕ → Byte} (n : ℕ) : ∀ {d : Drive},
    writeFatHeads buffer x n d = .ok d' → d'.vol = d.vol := by
  induction n with
  | zero =>
    intro d h
    cases h
    rfl
  | succ n ih =>
    intro d h
    obtain ⟨d₁, hwrite, hrest⟩ := except_bind_ok h
    rw [ih hrest, (checked_write_ok hwrite).1]

/-- The buffer holds the boot sector when the drive is mounted: on a FAT32 drive it has
been overwritten, but the sector is read again. -/
theorem writeBoot_ok (h : writeBoot cfg p x d = .ok (boot, d')) {o : ℕ}
    (ho : o < d.vol.sectorSize) : boot o = bootSector cfg p x o := by
  obtain ⟨d₁, hwrite, hrest⟩ := except_bind_ok h
  obtain ⟨hvol₁, -, hdev₁⟩ := checked_write_ok hwrite
  by_cases ht : x.row.fatType = .fat32
  · rw [if_pos ht] at hrest
    obtain ⟨d₂, hwrite₂, hrest⟩ := except_bind_ok hrest
    obtain ⟨d₃, hwrite₃, hrest⟩ := except_bind_ok hrest
    obtain ⟨d₄, hread, hrest⟩ := except_bind_ok hrest
    obtain ⟨hvol₂, -, hdev₂⟩ := checked_write_ok hwrite₂
    obtain ⟨hvol₃, -, hdev₃⟩ := checked_write_ok hwrite₃
    have hboot : (mfsReadDeviceSectors d₃ 0 1 (putFsinfo (bootSector cfg p x)) 0).2.1 = boot := by
      cases hrest
      rfl
    rw [← hboot, checked_read_ok (checked_ok hread).1 (by rwa [hvol₃, hvol₂, hvol₁]), hdev₃,
      storeSectors_of_notMem (by decide), hdev₂, storeSectors_of_notMem (by decide), hdev₁,
      storeSectors_of_mem (le_refl 0) (by decide) ho, Nat.sub_zero, Nat.zero_mul, Nat.zero_add]
  · rw [if_neg ht] at hrest
    cases hrest
    rfl

/-- What is known at the mount step. -/
structure FormatData.Accepted (p : FormatData) : Prop where
  sectors : p.reservedSectors < p.numberOfSectors
  reserved : p.row.fatType = .fat32 → 32 ≤ p.reserved
  rootdir : p.row.rootdirSize < p.availableSectors

theorem formatDrive_ok {openFiles : Bool} (h : formatDrive cfg p openFiles d = .ok (boot, d')) :
    p.Accepted ∧ ∀ o < d.vol.sectorSize, boot o = bootSector cfg p (p.plan cfg) o := by
  unfold formatDrive at h
  split at h
  · cases h
  · split at h
    · cases h
    · split at h
      · cases h
      · split at h
        · cases h
        · split at h
          · cases h
          · rename_i hsectors _ hreserved hroot
            obtain ⟨d₁, hclear, h⟩ := except_bind_ok h
            obtain ⟨d₂, hrootdir, h⟩ := except_bind_ok h
            obtain ⟨d₃, hheads, h⟩ := except_bind_ok h
            have hvol : d₃.vol.sectorSize = d.vol.sectorSize := by
              rw [writeFatHeads_vol _ hheads, clearRootCluster_vol hrootdir,
                writeSectors_vol _ hclear]
            refine ⟨⟨by omega, fun ht => ?_, by omega⟩, fun o ho => ?_⟩
            · by_contra hlt
              exact hreserved ⟨ht, by omega⟩
            · exact writeBoot_ok h (by rwa [hvol])

/-! ## Mounting -/

theorem takeFreeCount_vol (b : ℕ → Byte) (d : Drive) : (takeFreeCount b d).vol = d.vol := by
  unfold takeFreeCount
  split <;> rfl

theorem mfsReadDeviceSectors_vol (d : Drive) (n : ℕ) (buffer : ℕ → Byte) :
    (mfsReadDeviceSectors d n 1 buffer 0).2.2.vol = d.vol := by
  unfold mfsReadDeviceSectors
  split
  · rfl
  · split <;> rfl

theorem mfsWriteDeviceSectors_vol (d : Drive) (n : ℕ) (buffer : ℕ → Byte) :
    (mfsWriteDeviceSectors d n 1 buffer).2.vol = d.vol := by
  unfold mfsWriteDeviceSectors
  split
  · rfl
  · split
    · rfl
    · split <;> rfl

theorem mountFat32_vol (q : Bpb) (d : Drive) : (mountFat32 q d).2.vol = d.vol := by
  unfold mountFat32 mountFsinfo
  split
  · split
    · rfl
    · dsimp only
      split
      · rw [mfsWriteDeviceSectors_vol, takeFreeCount_vol, mfsReadDeviceSectors_vol]
      · rw [takeFreeCount_vol, mfsReadDeviceSectors_vol]
  · rfl

/-- Whatever the information sector says, the volume is the one the boot sector describes. -/
theorem mfsMountDriveInternal_vol (hjmp : boot 0 = 0xEB#8) : ∃ size,
    (mfsMountDriveInternal cfg boot d).2.vol =
      { (readBpb boot).volume d.vol with fatCacheSize := size } := by
  unfold mfsMountDriveInternal
  rw [if_neg (by simp [hjmp])]
  dsimp only
  split
  · exact ⟨_, by rw [mountFat32_vol]⟩
  · exact ⟨_, by rw [mountFat32_vol]⟩

/-! ## The sizes -/

/-- A property of the row that is found, row by row. -/
theorem findRow_of {n lo : ℕ} {Q : FormatRow → Prop} {r : FormatRow} {rest : List FormatRow}
    (hlo : lo ≤ n) (hr : lo ≤ n → n < r.sectorBound → Q r)
    (hrest : r.sectorBound ≤ n → Q (findRow n rest)) :
    Q (findRow n (r :: rest)) := by
  rcases Nat.lt_or_ge n r.sectorBound with h | h
  · rw [findRow, if_pos h]
    exact hr hlo h
  · rw [findRow, if_neg (by omega)]
    exact hrest h

theorem formatRow_cases {n : ℕ} {Q : FormatRow → Prop}
    (h₁ : n < 2048 → Q ⟨2048, .fat12, 7, 1⟩) (h₂ : n < 4096 → Q ⟨4096, .fat12, 14, 1⟩)
    (h₃ : n < 8192 → Q ⟨8192, .fat12, 32, 2⟩) (h₄ : n < 16384 → Q ⟨16384, .fat12, 32, 4⟩)
    (h₅ : n < 32640 → Q ⟨32640, .fat12, 32, 8⟩)
    (h₆ : 32640 ≤ n → n < 262080 → Q ⟨262080, .fat16, 32, 4⟩)
    (h₇ : 262080 ≤ n → n < 524160 → Q ⟨524160, .fat16, 32, 8⟩)
    (h₈ : 524160 ≤ n → n < 1048320 → Q ⟨1048320, .fat16, 32, 16⟩)
    (h₉ : 1048320 ≤ n → n < 2096640 → Q ⟨2096640, .fat16, 32, 32⟩)
    (h₁₀ : 2096640 ≤ n → n < 16777216 → Q ⟨16777216, .fat32, 0, 8⟩)
    (h₁₁ : 16777216 ≤ n → n < 33554432 → Q ⟨33554432, .fat32, 0, 16⟩)
    (h₁₂ : 33554432 ≤ n → n < 67108864 → Q ⟨67108864, .fat32, 0, 32⟩)
    (h₁₃ : 67108864 ≤ n → Q ⟨0, .fat32, 0, 64⟩) : Q (formatRow n) := by
  apply findRow_of (Nat.zero_le n) (fun _ => h₁)
  intro hlo
  apply findRow_of hlo (fun _ => h₂)
  intro hlo
  apply findRow_of hlo (fun _ => h₃)
  intro hlo
  apply findRow_of hlo (fun _ => h₄)
  intro hlo
  apply findRow_of hlo (fun _ => h₅)
  intro hlo
  apply findRow_of hlo h₆
  intro hlo
  apply findRow_of hlo h₇
  intro hlo
  apply findRow_of hlo h₈
  intro hlo
  apply findRow_of hlo h₉
  intro hlo
  apply findRow_of hlo h₁₀
  intro hlo
  apply findRow_of hlo h₁₁
  intro hlo
  apply findRow_of hlo h₁₂
  exact h₁₃

/-- What the FAT12 rows have in common, and the sector counts they are for. -/
structure Fat12Row (n : ℕ) (r : FormatRow) : Prop where
  count : n < 32640
  root_pos : 7 ≤ r.rootdirSize
  root_le : r.rootdirSize ≤ 32
  cluster_pos : 1 ≤ r.clusterSize
  cluster_le : r.clusterSize ≤ 8

structure Fat16Row (n : ℕ) (r : FormatRow) : Prop where
  root : r.rootdirSize = 32
  cluster_ge : 4 ≤ r.clusterSize
  cluster_le : r.clusterSize ≤ 32
  count_ge : 8160 * r.clusterSize ≤ n
  count_lt : n < 65520 * r.clusterSize

structure Fat32Row (n : ℕ) (r : FormatRow) : Prop where
  root : r.rootdirSize = 0
  cluster_ge : 8 ≤ r.clusterSize
  cluster_le : r.clusterSize ≤ 64
  count_ge : 262080 * r.clusterSize ≤ n
  count_lt : n < 2 ^ 26 * r.clusterSize

theorem formatRow_fat12 {n : ℕ} (h : (formatRow n).fatType = .fat12) :
    Fat12Row n (formatRow n) := by
  revert h
  apply formatRow_cases (n := n) (Q := fun r => r.fatType = .fat12 → Fat12Row n r) <;>
    intros <;> first | contradiction | (constructor <;> (try dsimp only) <;> omega)

theorem formatRow_fat16 {n : ℕ} (h : (formatRow n).fatType = .fat16) :
    Fat16Row n (formatRow n) := by
  revert h
  apply formatRow_cases (n := n) (Q := fun r => r.fatType = .fat16 → Fat16Row n r) <;>
    intros <;> first | contradiction | (constructor <;> dsimp only <;> omega)

theorem formatRow_fat32 {n : ℕ} (hn : n < 2 ^ 32) (h : (formatRow n).fatType = .fat32) :
    Fat32Row n (formatRow n) := by
  revert h
  apply formatRow_cases (n := n) (Q := fun r => r.fatType = .fat32 → Fat32Row n r) <;>
    intros <;> first | contradiction | (constructor <;> dsimp only <;> omega)

/-- A quotient rounded up. -/
theorem roundUp_bounds {m q : ℕ} (hm : 0 < m) (hq : 0 < q) :
    m ≤ q * (1 + (m - 1) / q) ∧ q * (1 + (m - 1) / q) < m + q := by
  have hdiv := Nat.div_add_mod (m - 1) q
  have hmod := Nat.mod_lt (m - 1) hq
  rw [Nat.mul_add, Nat.mul_one]
  omega

namespace FormatData

/-- The sectors that the copies of the table share with the clusters. -/
def sharedSectors (p : FormatData) : ℕ := p.numberOfSectors - p.reserved - p.row.rootdirSize

/-- The sectors in front of the clusters. -/
def systemSectors (cfg : MfsConfig) (p : FormatData) : ℕ :=
  p.reserved + cfg.numOfFats * p.fatSize cfg + p.row.rootdirSize

theorem row_count_lt (p : FormatData) : p.numberOfSectors - p.reservedSectors < 2 ^ 32 :=
  lt_of_le_of_lt (Nat.sub_le _ _) p.numberOfSectors_lt

theorem reserved_lt (p : FormatData) : p.reserved < 2 ^ 16 := by
  have hlt := p.reservedSectors_lt
  unfold reserved
  split
  · split <;> norm_num
  · exact hlt

/-- All but the default count of reserved sectors is left. -/
theorem Accepted.available (h : p.Accepted) :
    p.availableSectors = p.numberOfSectors - p.reserved ∧ p.reserved ≤ p.numberOfSectors ∧
      p.numberOfSectors - p.reservedSectors ≤ p.availableSectors +
        (if p.row.fatType = .fat32 then 32 else 1) ∧
      p.availableSectors ≤ p.numberOfSectors - p.reservedSectors := by
  have hsectors := h.sectors
  have hlt := p.numberOfSectors_lt
  have hle : p.reserved ≤ p.numberOfSectors := by
    unfold FormatData.reserved
    split
    · rename_i hzero
      split
      · rename_i ht
        have hrow := formatRow_fat32 p.row_count_lt ht
        have hcount := hrow.count_ge
        have hcluster := hrow.cluster_ge
        omega
      · omega
    · omega
  have havail : p.availableSectors = p.numberOfSectors - p.reserved := by
    unfold availableSectors
    omega
  refine ⟨havail, hle, ?_, ?_⟩
  · rw [havail]
    unfold FormatData.reserved
    split <;> omega
  · rw [havail]
    unfold FormatData.reserved
    split
    · split <;> omega
    · omega

/-- The size of a copy of the table on a FAT12 drive: `3 / 2` bytes for each of the
clusters, and for what the table itself takes. -/
theorem fatSize_fat12 (cfg : MfsConfig) (h : p.Accepted) (ht : p.row.fatType = .fat12) :
    3 * p.sharedSectors ≤ (2 * p.bytesPerSector * p.row.clusterSize + 6) * p.fatSize cfg ∧
      (2 * p.bytesPerSector * p.row.clusterSize + 6) * p.fatSize cfg <
        3 * p.sharedSectors + (2 * p.bytesPerSector * p.row.clusterSize + 6) := by
  have hroot := h.rootdir
  rw [h.available.1] at hroot
  simp only [fatSize, ht]
  rw [h.available.1]
  exact roundUp_bounds (by unfold sharedSectors; omega) (by omega)

theorem fatSize_fat16 (cfg : MfsConfig) (h : p.Accepted) (ht : p.row.fatType = .fat16) :
    p.sharedSectors ≤ (p.bytesPerSector * p.row.clusterSize / 2 + 2) * p.fatSize cfg ∧
      (p.bytesPerSector * p.row.clusterSize / 2 + 2) * p.fatSize cfg <
        p.sharedSectors + (p.bytesPerSector * p.row.clusterSize / 2 + 2) := by
  have hroot := h.rootdir
  rw [h.available.1] at hroot
  simp only [fatSize, ht]
  rw [h.available.1]
  exact roundUp_bounds (by unfold sharedSectors; omega) (by omega)

/-- On a FAT32 drive the sum is cut to 32 bits when few sectors are missing to the full
range, and the table then has no sector at all. -/
theorem fatSize_fat32 (cfg : MfsConfig) (h : p.Accepted) (ht : p.row.fatType = .fat32) :
    (p.numberOfSectors - p.reserved + (256 * p.row.clusterSize + cfg.numOfFats) / 2 ≤ 2 ^ 32 →
      p.numberOfSectors - p.reserved ≤
          (256 * p.row.clusterSize + cfg.numOfFats) / 2 * p.fatSize cfg ∧
        (256 * p.row.clusterSize + cfg.numOfFats) / 2 * p.fatSize cfg <
          p.numberOfSectors - p.reserved + (256 * p.row.clusterSize + cfg.numOfFats) / 2) ∧
    (2 ^ 32 < p.numberOfSectors - p.reserved + (256 * p.row.clusterSize + cfg.numOfFats) / 2 →
      p.fatSize cfg = 0) := by
  have hrow := formatRow_fat32 p.row_count_lt ht
  have hpos : 0 < (256 * p.row.clusterSize + cfg.numOfFats) / 2 := by
    have hcluster : 8 ≤ p.row.clusterSize := hrow.cluster_ge
    omega
  have hroot := h.rootdir
  have hlt := p.numberOfSectors_lt
  rw [h.available.1] at hroot
  simp only [fatSize, ht]
  rw [h.available.1]
  constructor
  · intro hle
    rw [Nat.mod_eq_of_lt (by omega), Nat.sub_add_comm (by omega), Nat.add_div_right _ hpos,
      Nat.add_comm _ 1]
    exact roundUp_bounds (by omega) hpos
  · intro hgt
    apply Nat.div_eq_of_lt
    omega

/-- The sector sizes a drive can have. -/
def SectorSizeOk (p : FormatData) : Prop := ∃ j, 9 ≤ j ∧ j ≤ 12 ∧ p.bytesPerSector = 2 ^ j

theorem SectorSizeOk.bounds (h : p.SectorSizeOk) :
    512 ≤ p.bytesPerSector ∧ p.bytesPerSector ≤ 4096 ∧ p.bytesPerSector % 32 = 0 := by
  obtain ⟨j, hlo, hhi, hsize⟩ := h
  rw [hsize]
  interval_cases j <;> decide

/-- A rounded quotient by `q` is no larger than one by a smaller number. -/
theorem mul_lt_of_le {m q l k : ℕ} (hl : 0 < l) (hlq : l ≤ q) (h : q * k < m + q) :
    l * k < m + l := by
  cases k with
  | zero => omega
  | succ k =>
    rw [Nat.mul_succ] at h ⊢
    have hle := Nat.mul_le_mul_right k hlq
    omega

/-- The table is small: none of the sums of `MFS_Mount_drive_internal` but the sector count
leaves the range. -/
theorem fatSize_le (cfg : MfsConfig) (h : p.Accepted) (hb : p.SectorSizeOk) :
    (p.row.fatType ≠ .fat32 → 0 < p.fatSize cfg ∧ p.fatSize cfg < 2 ^ 12) ∧
      p.fatSize cfg ≤ 2 ^ 19 + 1 := by
  obtain ⟨hlow, -, -⟩ := hb.bounds
  obtain ⟨havail, -, -, hupper⟩ := h.available
  have hroot := h.rootdir
  rw [havail] at hroot hupper
  have hshared : 0 < p.sharedSectors := by
    unfold sharedSectors
    omega
  have hshared_le : p.sharedSectors ≤ p.numberOfSectors - p.reserved := Nat.sub_le _ _
  cases ht : p.row.fatType with
  | fat12 =>
    have hrow : Fat12Row _ p.row := formatRow_fat12 ht
    have hcount := hrow.count
    obtain ⟨hge, hlt⟩ := fatSize_fat12 cfg h ht
    have hq : 1024 ≤ 2 * p.bytesPerSector * p.row.clusterSize + 6 := by
      have := Nat.mul_le_mul (Nat.mul_le_mul_left 2 hlow) hrow.cluster_pos
      omega
    have hk := mul_lt_of_le (by omega) hq hlt
    have hpos : p.fatSize cfg ≠ 0 := by
      intro hzero
      rw [hzero] at hge
      omega
    omega
  | fat16 =>
    have hrow : Fat16Row _ p.row := formatRow_fat16 ht
    have hcount := hrow.count_lt
    have hcluster := hrow.cluster_le
    obtain ⟨hge, hlt⟩ := fatSize_fat16 cfg h ht
    have hq : 1024 ≤ p.bytesPerSector * p.row.clusterSize / 2 + 2 := by
      have := Nat.mul_le_mul hlow hrow.cluster_ge
      omega
    have hk := mul_lt_of_le (by omega) hq hlt
    have hpos : p.fatSize cfg ≠ 0 := by
      intro hzero
      rw [hzero] at hge
      omega
    omega
  | fat32 =>
    have hrow : Fat32Row _ p.row := formatRow_fat32 p.row_count_lt ht
    have hcount := hrow.count_lt
    refine ⟨fun hne => absurd rfl hne, ?_⟩
    obtain ⟨hfit, hcut⟩ := fatSize_fat32 cfg h ht
    rcases Nat.lt_or_ge (2 ^ 32)
      (p.numberOfSectors - p.reserved + (256 * p.row.clusterSize + cfg.numOfFats) / 2) with hgt | hle
    · rw [hcut hgt]
      omega
    · have hk := mul_lt_of_le (l := 128 * p.row.clusterSize) (by have := hrow.cluster_ge; omega)
        (by omega) (hfit hle).2
      have hcancel : p.row.clusterSize * (128 * p.fatSize cfg) <
          p.row.clusterSize * (2 ^ 26 + 128) := by
        rw [Nat.mul_add, ← Nat.mul_assoc, Nat.mul_comm p.row.clusterSize 128,
          Nat.mul_comm _ (2 ^ 26)]
        omega
      have hlt := Nat.lt_of_mul_lt_mul_left hcancel
      omega

theorem clusterSize_bounds (p : FormatData) :
    1 ≤ p.row.clusterSize ∧ p.row.clusterSize ≤ 64 ∧ p.row.rootdirSize ≤ 32 := by
  cases ht : p.row.fatType with
  | fat12 =>
    have hrow : Fat12Row _ p.row := formatRow_fat12 ht
    exact ⟨hrow.cluster_pos, hrow.cluster_le.trans (by omega), hrow.root_le⟩
  | fat16 =>
    have hrow : Fat16Row _ p.row := formatRow_fat16 ht
    exact ⟨by have := hrow.cluster_ge; omega, hrow.cluster_le.trans (by omega), hrow.root.le⟩
  | fat32 =>
    have hrow : Fat32Row _ p.row := formatRow_fat32 p.row_count_lt ht
    exact ⟨by have := hrow.cluster_ge; omega, hrow.cluster_le, by rw [hrow.root]; omega⟩

theorem systemSectors_lt (cfg : MfsConfig) (h : p.Accepted) (hb : p.SectorSizeOk) :
    p.systemSectors cfg < 2 ^ 28 := by
  have hreserved := p.reserved_lt
  have hroot := p.clusterSize_bounds
  have hsize := (fatSize_le cfg h hb).2
  have hcopies := Nat.mul_le_mul (Nat.le_of_lt_succ cfg.numOfFats_lt) hsize
  unfold systemSectors
  omega

/-- The sectors that are left for clusters when the count in the boot sector is `m`, in
32 bits. -/
def leftSectors (cfg : MfsConfig) (p : FormatData) : ℕ :=
  (p.recordedSectors + (2 ^ 32 - p.systemSectors cfg)) % 2 ^ 32

end FormatData

namespace Bpb.Holds

variable {q : Bpb}

theorem rootDirSectors (hq : q.Holds cfg p (p.plan cfg)) (hb : p.SectorSizeOk) :
    q.rootDirSectors = p.row.rootdirSize ∧
      q.rootEntries / (q.sectorSize / dirEntrySize) = p.row.rootdirSize := by
  obtain ⟨hlow, hhigh, hdvd⟩ := hb.bounds
  obtain ⟨m, hm⟩ := Nat.dvd_of_mod_eq_zero hdvd
  have hentries : q.rootEntries = p.row.rootdirSize * m := by
    have hle := Nat.mul_le_mul p.clusterSize_bounds.2.2 (show m ≤ 128 by omega)
    rw [hq.rootEntries, Nat.shiftRight_eq_div_pow, hm, Nat.mul_div_cancel_left m (by decide)]
    exact Nat.mod_eq_of_lt (by simp only [FormatData.plan]; omega)
  have hpos : 0 < m := by omega
  constructor
  · rw [Bpb.rootDirSectors, hentries, hq.sectorSize, hm, dirEntrySize, Nat.mul_assoc,
      Nat.mul_comm m 32, Nat.add_comm, Nat.add_mul_div_right _ _ (by omega),
      Nat.div_eq_of_lt (by omega), Nat.zero_add]
  · rw [hentries, hq.sectorSize, hm, dirEntrySize, Nat.mul_div_cancel_left m (by decide),
      Nat.mul_div_cancel _ hpos]

theorem fields (hq : q.Holds cfg p (p.plan cfg)) :
    q.sectorsPerCluster = p.row.clusterSize ∧ q.reservedSectors = p.reserved := by
  constructor
  · rw [hq.sectorsPerCluster]
    exact Nat.mod_eq_of_lt (lt_of_le_of_lt p.clusterSize_bounds.2.1 (by decide))
  · rw [hq.reservedSectors]
    exact Nat.mod_eq_of_lt p.reserved_lt

/-- Mounting finds the size of the table that formatting wrote. -/
theorem fatSizes (hq : q.Holds cfg p (p.plan cfg)) (h : p.Accepted) (hb : p.SectorSizeOk) :
    q.fatSize = p.fatSize cfg ∧
      (if p.row.fatType = .fat32 then q.fatSize32 else q.sectorsPerFat) = p.fatSize cfg := by
  have hsize := FormatData.fatSize_le cfg h hb
  by_cases ht : p.row.fatType = .fat32
  · have hzero : q.sectorsPerFat = 0 := by
      rw [hq.sectorsPerFat]
      exact if_pos ht
    have hlong : q.fatSize32 = p.fatSize cfg := by
      rw [hq.fatSize32 ht]
      exact Nat.mod_eq_of_lt (by simp only [FormatData.plan]; omega)
    rw [if_pos ht, Bpb.fatSize, if_pos hzero]
    exact ⟨hlong, hlong⟩
  · have hshort : q.sectorsPerFat = p.fatSize cfg := by
      rw [hq.sectorsPerFat]
      exact (if_neg ht).trans (Nat.mod_eq_of_lt ((hsize.1 ht).2.trans (by decide)))
    rw [if_neg ht, Bpb.fatSize, if_neg (by have := hsize.1 ht; omega)]
    exact ⟨hshort, hshort⟩

theorem dataSectors (hq : q.Holds cfg p (p.plan cfg)) (h : p.Accepted) (hb : p.SectorSizeOk) :
    q.dataSectors = p.leftSectors cfg := by
  have hlt := FormatData.systemSectors_lt cfg h hb
  rw [Bpb.dataSectors, hq.fields.2, hq.numberOfFat, (hq.fatSizes h hb).1,
    (hq.rootDirSectors hb).1, hq.megaSectors, FormatData.leftSectors]
  unfold FormatData.systemSectors at hlt ⊢
  rw [Nat.mod_eq_of_lt (by omega : _ + _ + _ < 2 ^ 32)]

/-- The type by the number of clusters. -/
theorem fatType (hq : q.Holds cfg p (p.plan cfg)) (h : p.Accepted) (hb : p.SectorSizeOk) :
    q.fatType =
      if p.leftSectors cfg / p.row.clusterSize < 4085 then .fat12
      else if p.leftSectors cfg / p.row.clusterSize < 65525 then .fat16
      else .fat32 := by
  rw [Bpb.fatType, clusterCount, hq.dataSectors h hb, hq.fields.1]

/-- Where the types agree, so do the size of the table and the first data sector. -/
theorem lastCluster (hq : q.Holds cfg p (p.plan cfg)) (h : p.Accepted) (hb : p.SectorSizeOk)
    (ht : q.fatType = p.row.fatType) :
    q.tableSize = p.fatSize cfg ∧
      q.lastCluster = (p.leftSectors cfg / p.row.clusterSize + 1) % 2 ^ 32 := by
  have hlt := FormatData.systemSectors_lt cfg h hb
  have hsizes := (hq.fatSizes h hb).2
  have hstart : q.dataStartSector = p.systemSectors cfg := by
    unfold FormatData.systemSectors at hlt ⊢
    rw [Bpb.dataStartSector, ht, hq.fields.2, hq.numberOfFat, (hq.rootDirSectors hb).2]
    split
    · rename_i h32
      have hrow : Fat32Row _ p.row := formatRow_fat32 p.row_count_lt h32
      rw [if_pos h32] at hsizes
      rw [hsizes, hrow.root, Nat.mul_comm, Nat.add_zero, Nat.mod_eq_of_lt (by omega)]
    · rename_i h32
      rw [if_neg h32] at hsizes
      rw [hsizes, Nat.mul_comm, Nat.mod_eq_of_lt (by omega)]
  constructor
  · rw [tableSize, ht, hsizes]
  · rw [Bpb.lastCluster, hstart, hq.megaSectors, hq.fields.1, FormatData.leftSectors]

end Bpb.Holds

/-! ## Room in the table -/

theorem div_add_two_le {m c e : ℕ} (hc : 0 < c) : m / c + 2 ≤ e ↔ m + c < c * e := by
  have hdiv : ∀ y, m / c < y ↔ m < y * c := fun y => Nat.div_lt_iff_lt_mul hc
  generalize m / c = n at hdiv ⊢
  rcases Nat.lt_or_ge e 2 with he | he
  · have hle : c * e ≤ c * 1 := Nat.mul_le_mul_left c (by omega)
    omega
  · obtain ⟨e, rfl⟩ := Nat.exists_eq_add_of_le he
    have hlt := hdiv (e + 1)
    have hmul : c * (2 + e) = (e + 1) * c + c := by ring
    omega

/-- Entries of a FAT12 table: two share three bytes. -/
theorem room_fat12 {m c k b : ℕ} (hc : 0 < c) :
    12 * (m / c + 2) ≤ 8 * (k * b) ↔ 3 * m + c * (3 + 2 * b * k % 3) < 2 * b * c * k := by
  have hsplit := Nat.div_add_mod (2 * b * k) 3
  have hbytes : 8 * (k * b) = 4 * (2 * b * k) := by ring
  have hentries : 12 * (m / c + 2) ≤ 8 * (k * b) ↔ m / c + 2 ≤ 2 * b * k / 3 := by omega
  have hmul : 2 * b * c * k = 3 * (c * (2 * b * k / 3)) + c * (2 * b * k % 3) := by
    calc 2 * b * c * k = c * (2 * b * k) := by ring
      _ = c * (3 * (2 * b * k / 3) + 2 * b * k % 3) := by rw [hsplit]
      _ = 3 * (c * (2 * b * k / 3)) + c * (2 * b * k % 3) := by ring
  rw [hentries, div_add_two_le hc, hmul, Nat.mul_add]
  omega

theorem room_fat16 {m c k b : ℕ} (hc : 0 < c) (hb : b % 2 = 0) :
    16 * (m / c + 2) ≤ 8 * (k * b) ↔ m + c < b * c / 2 * k := by
  obtain ⟨e, rfl⟩ := Nat.dvd_of_mod_eq_zero hb
  have hbytes : 8 * (k * (2 * e)) = 16 * (k * e) := by ring
  have hhalf : 2 * e * c / 2 * k = c * (k * e) := by
    rw [Nat.mul_assoc, Nat.mul_div_cancel_left _ (by decide)]
    ring
  rw [hhalf, ← div_add_two_le hc]
  omega

/-- Entries the table has room for lie in its sectors. -/
theorem neededEndSector_lt_of_room {v : Volume} {size : ℕ}
    (hroom : v.fatType.bits * (v.lastCluster + 1) ≤ 8 * (size * v.sectorSize))
    (hsize : size * v.sectorSize < 2 ^ 32) {e : ℕ} (he : e ≤ v.lastCluster) :
    neededEndSector v (fatOffset v.fatType e) < size := by
  have hmono := Nat.mul_le_mul_left v.fatType.bits (Nat.add_le_add_right he 1)
  have hlast : 8 * (fatOffset v.fatType e + (v.fatType.entryBytes - 1)) <
      v.fatType.bits * (e + 1) := by
    cases ht : v.fatType <;> rw [ht] at hmono hroom <;>
      simp only [fatOffset, FatType.entryBytes, FatType.bits] at * <;> omega
  apply lt_of_le_of_lt (neededEndSector_le_last v e)
  exact Nat.div_lt_of_lt_mul (by rw [Nat.mul_comm]; omega)

/-! ## Agreement -/

/-- Mounting finds the type that formatting chose, and the table of `size` sectors that
was written has an entry for every cluster. -/
structure FormatAgrees (p : FormatData) (size : ℕ) (v : Volume) : Prop where
  fatType : v.fatType = p.row.fatType
  room : v.fatType.bits * (v.lastCluster + 1) ≤ 8 * (size * p.bytesPerSector)
  access : ∀ e, clusterMinGood ≤ e → e ≤ v.lastCluster →
    neededEndSector v (fatOffset v.fatType e) < size

namespace FormatData

/-- The sectors of one copy of the table by the formulas, without a bound on the
numbers. -/
def tableSectors (cfg : MfsConfig) (p : FormatData) : ℕ :=
  match p.row.fatType with
  | .fat12 => 1 + (3 * p.sharedSectors - 1) / (2 * p.bytesPerSector * p.row.clusterSize + 6)
  | .fat16 => 1 + (p.sharedSectors - 1) / (p.bytesPerSector * p.row.clusterSize / 2 + 2)
  | .fat32 => 1 + (p.sharedSectors - 1) / ((256 * p.row.clusterSize + cfg.numOfFats) / 2)

/-- On a FAT12 drive the copies of the table fit, fewer than 4085 clusters remain, and
rounding the table up left enough of it unused for the two reserved entries. -/
def Fits12 (cfg : MfsConfig) (p : FormatData) : Prop :=
  p.recordedSectors = p.numberOfSectors ∧
    cfg.numOfFats * p.tableSectors cfg ≤ p.sharedSectors ∧
    p.sharedSectors < 4085 * p.row.clusterSize + cfg.numOfFats * p.tableSectors cfg ∧
    6 * p.tableSectors cfg +
        p.row.clusterSize * (3 + 2 * p.bytesPerSector * p.tableSectors cfg % 3) <
      (2 * p.bytesPerSector * p.row.clusterSize + 6) * p.tableSectors cfg -
        3 * p.sharedSectors + 3 * (cfg.numOfFats * p.tableSectors cfg)

/-- On a FAT16 drive rounding up left enough of the table unused. A count cut to two bytes
must leave 4085 clusters. -/
def Fits16 (cfg : MfsConfig) (p : FormatData) : Prop :=
  (p.recordedSectors = p.numberOfSectors ∧
    2 * p.tableSectors cfg + p.row.clusterSize <
      (p.bytesPerSector * p.row.clusterSize / 2 + 2) * p.tableSectors cfg - p.sharedSectors +
        cfg.numOfFats * p.tableSectors cfg) ∨
  (p.recordedSectors ≠ p.numberOfSectors ∧
    p.reserved + cfg.numOfFats * p.tableSectors cfg + p.row.rootdirSize +
      4085 * p.row.clusterSize ≤ p.recordedSectors)

/-- On a FAT32 drive the sum in the formula stays below `2 ^ 32`. A count cut to two bytes
must be below the system area, and the table is then as large as the wrapped count needs. -/
def Fits32 (cfg : MfsConfig) (p : FormatData) : Prop :=
  p.sharedSectors + (256 * p.row.clusterSize + cfg.numOfFats) / 2 ≤ 2 ^ 32 ∧
    (p.recordedSectors = p.numberOfSectors ∨
      (p.recordedSectors < p.reserved + cfg.numOfFats * p.tableSectors cfg ∧
        4 * ((p.recordedSectors + 2 ^ 32 - p.reserved - cfg.numOfFats * p.tableSectors cfg) /
          p.row.clusterSize + 2) ≤ p.tableSectors cfg * p.bytesPerSector))

def Fits (cfg : MfsConfig) (p : FormatData) : Prop :=
  match p.row.fatType with
  | .fat12 => p.Fits12 cfg
  | .fat16 => p.Fits16 cfg
  | .fat32 => p.Fits32 cfg

theorem Accepted.shared (h : p.Accepted) :
    p.numberOfSectors = p.reserved + p.row.rootdirSize + p.sharedSectors ∧ 0 < p.sharedSectors := by
  have hroot := h.rootdir
  rw [h.available.1] at hroot
  unfold sharedSectors
  omega

theorem tableSectors_eq (h : p.Accepted) (ht : p.row.fatType ≠ .fat32) :
    p.tableSectors cfg = p.fatSize cfg := by
  cases hrow : p.row.fatType with
  | fat12 => simp only [tableSectors, fatSize, hrow, h.available.1, sharedSectors]
  | fat16 => simp only [tableSectors, fatSize, hrow, h.available.1, sharedSectors]
  | fat32 => exact absurd hrow ht

theorem recordedSectors_cut (hne : p.recordedSectors ≠ p.numberOfSectors) :
    p.recordedSectors = p.numberOfSectors % 2 ^ 16 ∧ 2 ^ 16 ≤ p.numberOfSectors := by
  unfold recordedSectors at hne ⊢
  split at hne
  · rename_i hcut
    rw [if_pos hcut]
    exact ⟨rfl, by omega⟩
  · exact absurd rfl hne

theorem fits12_iff (h : p.Accepted) (hb : p.SectorSizeOk) (ht : p.row.fatType = .fat12) :
    (p.leftSectors cfg / p.row.clusterSize < 4085 ∧
      12 * (p.leftSectors cfg / p.row.clusterSize + 2) ≤ 8 * (p.fatSize cfg * p.bytesPerSector)) ↔
    p.Fits12 cfg := by
  have hrow : Fat12Row _ p.row := formatRow_fat12 ht
  have hcount := hrow.count
  have hroot := hrow.root_pos
  have hcluster := hrow.cluster_le
  have hpos := hrow.cluster_pos
  obtain ⟨hsum, -⟩ := h.shared
  have havail := h.available
  have hsystem := systemSectors_lt cfg h hb
  have hge := (fatSize_fat12 cfg h ht).1
  rw [Fits12, tableSectors_eq h (by rw [ht]; decide), Nat.div_lt_iff_lt_mul hpos,
    room_fat12 hpos, Nat.add_mul]
  rw [Nat.add_mul] at hge
  unfold leftSectors
  unfold systemSectors at hsystem ⊢
  generalize cfg.numOfFats * p.fatSize cfg = copies at *
  generalize p.row.clusterSize * (3 + 2 * p.bytesPerSector * p.fatSize cfg % 3) = slack at *
  by_cases hwhole : p.recordedSectors = p.numberOfSectors
  · rw [hwhole]
    omega
  · obtain ⟨hcut, hlarge⟩ := recordedSectors_cut hwhole
    rw [hcut]
    omega

theorem fits16_iff (h : p.Accepted) (hb : p.SectorSizeOk) (ht : p.row.fatType = .fat16) :
    (4085 ≤ p.leftSectors cfg / p.row.clusterSize ∧
      p.leftSectors cfg / p.row.clusterSize < 65525 ∧
      16 * (p.leftSectors cfg / p.row.clusterSize + 2) ≤ 8 * (p.fatSize cfg * p.bytesPerSector)) ↔
    p.Fits16 cfg := by
  have hrow : Fat16Row _ p.row := formatRow_fat16 ht
  have hcount := hrow.count_ge
  have hcount' := hrow.count_lt
  have hroot := hrow.root
  have hcluster := hrow.cluster_le
  have hcluster' := hrow.cluster_ge
  have hpos : 0 < p.row.clusterSize := by omega
  obtain ⟨hlow, -, hdvd⟩ := hb.bounds
  obtain ⟨hsum, -⟩ := h.shared
  obtain ⟨havail, -, hlower, hupper⟩ := h.available
  rw [if_neg (by rw [ht]; decide), havail] at hlower
  rw [havail] at hupper
  have hsystem := systemSectors_lt cfg h hb
  have hsectors := p.numberOfSectors_lt
  obtain ⟨hge, hlt⟩ := fatSize_fat16 cfg h ht
  have hq : 1024 ≤ p.bytesPerSector * p.row.clusterSize / 2 + 2 := by
    have := Nat.mul_le_mul hlow hcluster'
    omega
  -- the copies take at most a quarter of the drive
  have hsmall := mul_lt_of_le (by omega) hq hlt
  have hcopies := Nat.mul_le_mul_right (p.fatSize cfg) (Nat.le_of_lt_succ cfg.numOfFats_lt)
  rw [Fits16, tableSectors_eq h (by rw [ht]; decide), Nat.div_lt_iff_lt_mul hpos,
    Nat.le_div_iff_mul_le hpos, room_fat16 hpos (by omega), Nat.add_mul]
  rw [Nat.add_mul] at hge
  unfold leftSectors
  unfold systemSectors at hsystem ⊢
  generalize cfg.numOfFats * p.fatSize cfg = copies at *
  generalize p.bytesPerSector * p.row.clusterSize / 2 * p.fatSize cfg = entries at *
  by_cases hwhole : p.recordedSectors = p.numberOfSectors
  · rw [hwhole]
    omega
  · obtain ⟨hcut, hlarge⟩ := recordedSectors_cut hwhole
    rw [hcut] at *
    omega

/-- The table of a FAT32 drive always has room: half the copies are left over. -/
theorem room_fat32 (h : p.Accepted) (hb : p.SectorSizeOk) (ht : p.row.fatType = .fat32)
    (hfit : p.sharedSectors + (256 * p.row.clusterSize + cfg.numOfFats) / 2 ≤ 2 ^ 32) :
    p.sharedSectors + p.row.clusterSize <
      cfg.numOfFats * p.fatSize cfg +
        p.row.clusterSize * (p.fatSize cfg * p.bytesPerSector / 4) := by
  have hrow : Fat32Row _ p.row := formatRow_fat32 p.row_count_lt ht
  have hcount := hrow.count_ge
  have hroot := hrow.root
  have hcluster := hrow.cluster_le
  have hcluster' := hrow.cluster_ge
  obtain ⟨hsum, -⟩ := h.shared
  obtain ⟨havail, -, hlower, -⟩ := h.available
  rw [if_pos ht, havail] at hlower
  have hdiff : p.numberOfSectors - p.reserved = p.sharedSectors := by omega
  have hge := ((fatSize_fat32 cfg h ht).1 (by rwa [hdiff])).1
  rw [hdiff] at hge hlower
  have htemp : (256 * p.row.clusterSize + cfg.numOfFats) / 2 =
      128 * p.row.clusterSize + cfg.numOfFats / 2 := by omega
  rw [htemp] at hge
  have hfats := cfg.numOfFats_lt
  have hlarge : p.row.clusterSize < p.fatSize cfg := by
    by_contra hle
    have hmul := Nat.mul_le_mul_left (128 * p.row.clusterSize + cfg.numOfFats / 2)
      (show p.fatSize cfg ≤ 64 by omega)
    omega
  have hhalf : (cfg.numOfFats / 2 + 1) * p.fatSize cfg ≤ cfg.numOfFats * p.fatSize cfg :=
    Nat.mul_le_mul_right _ (by have := cfg.numOfFats_pos; omega)
  have hentries : p.row.clusterSize * (128 * p.fatSize cfg) ≤
      p.row.clusterSize * (p.fatSize cfg * p.bytesPerSector / 4) := by
    apply Nat.mul_le_mul_left
    have hbytes := Nat.mul_le_mul_left (p.fatSize cfg) hb.bounds.1
    omega
  have hmul : 128 * p.row.clusterSize * p.fatSize cfg =
      p.row.clusterSize * (128 * p.fatSize cfg) := by ring
  rw [Nat.add_mul] at hge hhalf
  omega

/-- The copies of the table take at most a quarter of a FAT32 drive. -/
theorem leftSectors_fat32 (cfg : MfsConfig) (h : p.Accepted) (ht : p.row.fatType = .fat32)
    (hwhole : p.recordedSectors = p.numberOfSectors)
    (hfit : p.sharedSectors + (256 * p.row.clusterSize + cfg.numOfFats) / 2 ≤ 2 ^ 32) :
    cfg.numOfFats * p.fatSize cfg + 65525 * p.row.clusterSize ≤ p.sharedSectors ∧
      p.leftSectors cfg = p.sharedSectors - cfg.numOfFats * p.fatSize cfg := by
  have hrow : Fat32Row _ p.row := formatRow_fat32 p.row_count_lt ht
  have hcount := hrow.count_ge
  have hroot := hrow.root
  have hcluster := hrow.cluster_le
  have hcluster' := hrow.cluster_ge
  obtain ⟨hsum, -⟩ := h.shared
  obtain ⟨havail, -, hlower, -⟩ := h.available
  rw [if_pos ht, havail] at hlower
  have hdiff : p.numberOfSectors - p.reserved = p.sharedSectors := by omega
  have hsectors := p.numberOfSectors_lt
  have hlt := ((fatSize_fat32 cfg h ht).1 (by rwa [hdiff])).2
  have hsmall := mul_lt_of_le (l := 1024) (by omega) (by omega) hlt
  have hcopies := Nat.mul_le_mul_right (p.fatSize cfg) (Nat.le_of_lt_succ cfg.numOfFats_lt)
  unfold leftSectors systemSectors
  rw [hwhole]
  generalize cfg.numOfFats * p.fatSize cfg = copies at *
  constructor
  · omega
  · omega

theorem fits32_iff (h : p.Accepted) (hb : p.SectorSizeOk) (ht : p.row.fatType = .fat32) :
    (65525 ≤ p.leftSectors cfg / p.row.clusterSize ∧
      32 * (p.leftSectors cfg / p.row.clusterSize + 2) ≤ 8 * (p.fatSize cfg * p.bytesPerSector)) ↔
    p.Fits32 cfg := by
  have hrow : Fat32Row _ p.row := formatRow_fat32 p.row_count_lt ht
  have hcount := hrow.count_ge
  have hroot := hrow.root
  have hcluster := hrow.cluster_le
  have hcluster' := hrow.cluster_ge
  have hpos : 0 < p.row.clusterSize := by omega
  obtain ⟨hsum, hshared⟩ := h.shared
  obtain ⟨havail, -, hlower, -⟩ := h.available
  rw [if_pos ht, havail] at hlower
  have hdiff : p.numberOfSectors - p.reserved = p.sharedSectors := by omega
  have hsectors := p.numberOfSectors_lt
  have hsystem := systemSectors_lt cfg h hb
  obtain ⟨hfit, hcut⟩ := fatSize_fat32 cfg h ht
  rw [hdiff] at hfit hcut
  rw [Fits32]
  rcases Nat.lt_or_ge (2 ^ 32)
    (p.sharedSectors + (256 * p.row.clusterSize + cfg.numOfFats) / 2) with hgt | hle
  · rw [hcut hgt]
    omega
  · have htable : p.tableSectors cfg = p.fatSize cfg := by
      simp only [tableSectors, fatSize, ht, havail, hdiff]
      rw [Nat.mod_eq_of_lt (by omega), Nat.sub_add_comm (by omega),
        Nat.add_div_right _ (by omega), Nat.add_comm 1]
    have hroom := room_fat32 h hb ht hle
    rw [htable]
    by_cases hwhole : p.recordedSectors = p.numberOfSectors
    · obtain ⟨hcopies, hleft⟩ := leftSectors_fat32 cfg h ht hwhole hle
      rw [hleft, Nat.le_div_iff_mul_le hpos]
      have hentries := (div_add_two_le (m := p.sharedSectors - cfg.numOfFats * p.fatSize cfg)
        (e := p.fatSize cfg * p.bytesPerSector / 4) hpos).mpr (by omega)
      generalize cfg.numOfFats * p.fatSize cfg = copies at *
      omega
    · obtain ⟨hcut', -⟩ := recordedSectors_cut hwhole
      have hrecorded : p.recordedSectors < 2 ^ 16 := by omega
      unfold leftSectors
      unfold systemSectors at hsystem ⊢
      generalize cfg.numOfFats * p.fatSize cfg = copies at *
      rcases Nat.lt_or_ge p.recordedSectors (p.reserved + copies) with hlt | hge
      · have hleft : (p.recordedSectors + (2 ^ 32 - (p.reserved + copies + p.row.rootdirSize))) %
            2 ^ 32 = p.recordedSectors + 2 ^ 32 - p.reserved - copies := by omega
        rw [hleft, Nat.le_div_iff_mul_le hpos]
        omega
      · rw [Nat.le_div_iff_mul_le hpos]
        omega

end FormatData

theorem bootSector_jmp : bootSector cfg p x 0 = 0xEB#8 := by
  rw [bootSector_of_common (by omega)]
  by_cases hcut : (p.numberOfSectors + p.hiddenSectors) % 2 ^ 32 ≤ 0xFFFF <;>
    simp only [bootCommon, hcut, put32, put16_apply, Function.update_apply, Nat.reduceAdd,
      Nat.reduceEqDiff, if_true, if_false, putBytes, storeBytes] <;> rfl

/-- The drive after the mount step of `MFS_Format`. -/
theorem mfsFormat_vol {openFiles : Bool} (hb : p.SectorSizeOk)
    (hbuffer : p.bytesPerSector ≤ d.vol.sectorSize)
    (h : formatDrive cfg p openFiles d = .ok (boot, d')) :
    ∃ (q : Bpb) (size : ℕ), q.Holds cfg p (p.plan cfg) ∧
      (mfsFormat cfg p openFiles d).2.vol = { q.volume d'.vol with fatCacheSize := size } := by
  have hbytes := (formatDrive_ok h).2
  have hlow := hb.bounds.1
  have hjmp : boot 0 = 0xEB#8 := by rw [hbytes 0 (by omega), bootSector_jmp]
  obtain ⟨size, hvol⟩ := @mfsMountDriveInternal_vol cfg d' boot hjmp
  refine ⟨readBpb boot, size, ?_, ?_⟩
  · rw [readBpb_congr fun o ho => hbytes o (by omega)]
    exact readBpb_bootSector cfg p (p.plan cfg)
  · rw [mfsFormat, h]
    exact hvol

/-- The table of a mounted drive has room when the types agree and the last entry is in
it. -/
theorem formatAgrees_iff {q : Bpb} {size : ℕ} {old : Volume} (h : p.Accepted)
    (hb : p.SectorSizeOk) (hq : q.Holds cfg p (p.plan cfg)) :
    FormatAgrees p (p.fatSize cfg) { q.volume old with fatCacheSize := size } ↔
      q.fatType = p.row.fatType ∧
        p.row.fatType.bits * ((p.leftSectors cfg / p.row.clusterSize + 1) % 2 ^ 32 + 1) ≤
          8 * (p.fatSize cfg * p.bytesPerSector) := by
  have hbytes : p.fatSize cfg * p.bytesPerSector < 2 ^ 32 :=
    lt_of_le_of_lt (Nat.mul_le_mul (FormatData.fatSize_le cfg h hb).2 hb.bounds.2.1) (by decide)
  constructor
  · intro hagree
    have ht : q.fatType = p.row.fatType := hagree.fatType
    have hroom := hagree.room
    simp only [Bpb.volume, ht, (hq.lastCluster h hb ht).2] at hroom
    exact ⟨ht, hroom⟩
  · rintro ⟨ht, hroom⟩
    rw [← (hq.lastCluster h hb ht).2, ← ht] at hroom
    refine ⟨ht, hroom, fun e _ he => ?_⟩
    apply neededEndSector_lt_of_room (v := { q.volume old with fatCacheSize := size }) _ _ he
    · rw [← hq.sectorSize] at hroom
      exact hroom
    · rw [← hq.sectorSize] at hbytes
      exact hbytes

/-- Formatting and mounting agree on the drives that fit, and on no others. -/
theorem format_mount_agree_iff (cfg : MfsConfig) (p : FormatData) (openFiles : Bool) (d : Drive)
    (hb : p.SectorSizeOk) (hbuffer : p.bytesPerSector ≤ d.vol.sectorSize)
    (hreach : ∃ r, formatDrive cfg p openFiles d = .ok r) :
    FormatAgrees p (p.fatSize cfg) (mfsFormat cfg p openFiles d).2.vol ↔ p.Fits cfg := by
  obtain ⟨⟨boot, d'⟩, hok⟩ := hreach
  have h := (formatDrive_ok hok).1
  obtain ⟨q, size, hq, hvol⟩ := mfsFormat_vol hb hbuffer hok
  rw [hvol, formatAgrees_iff h hb hq, hq.fatType h hb, FormatData.Fits]
  have hleft : p.leftSectors cfg < 2 ^ 32 := Nat.mod_lt _ (by decide)
  have hclusters : p.leftSectors cfg / p.row.clusterSize ≤ p.leftSectors cfg :=
    Nat.div_le_self _ _
  cases ht : p.row.fatType with
  | fat12 =>
    rw [← FormatData.fits12_iff h hb ht, FatType.bits]
    generalize p.leftSectors cfg / p.row.clusterSize = n at *
    rcases Nat.lt_or_ge n 4085 with hn | hn
    · rw [if_pos hn, Nat.mod_eq_of_lt (by omega)]
      simp [hn]
    · split_ifs <;> simp <;> omega
  | fat16 =>
    rw [← FormatData.fits16_iff h hb ht, FatType.bits]
    generalize p.leftSectors cfg / p.row.clusterSize = n at *
    rcases Nat.lt_or_ge n 65525 with hn | hn
    · rw [Nat.mod_eq_of_lt (by omega)]
      split_ifs <;> simp <;> omega
    · split_ifs <;> simp <;> omega
  | fat32 =>
    have hrow : Fat32Row _ p.row := formatRow_fat32 p.row_count_lt ht
    have heighth := Nat.div_le_div_left hrow.cluster_ge (by decide) (a := p.leftSectors cfg)
    rw [← FormatData.fits32_iff h hb ht, FatType.bits]
    generalize p.leftSectors cfg / p.row.clusterSize = n at *
    rw [Nat.mod_eq_of_lt (by omega)]
    split_ifs <;> simp <;> omega

theorem mfsMountDriveInternal_cache (hjmp : boot 0 = 0xEB#8)
    (hok : (mfsMountDriveInternal cfg boot d).1 = .noError) :
    (mfsMountDriveInternal cfg boot d).2.vol =
      { (readBpb boot).volume d.vol with
        fatCacheSize := cfg.cacheSize (readBpb boot).tableSize } := by
  unfold mfsMountDriveInternal at hok ⊢
  rw [if_neg (by simp [hjmp])] at hok ⊢
  dsimp only at hok ⊢
  split at hok
  · rename_i hnone
    rw [if_pos hnone]
    dsimp only
    rw [mountFat32_vol]
  · rename_i herror
    exact absurd hok herror

/-- Cluster numbers are no codes of bad clusters or chain ends. -/
theorem lastCluster_le {q : Bpb} (h : p.Accepted) (hb : p.SectorSizeOk)
    (hq : q.Holds cfg p (p.plan cfg)) (hwhole : p.recordedSectors = p.numberOfSectors)
    (hfits : p.Fits cfg) (ht : q.fatType = p.row.fatType) : q.lastCluster ≤ 0x0FFFFFEF := by
  have hclusters := hq.fatType h hb
  rw [ht] at hclusters
  rw [(hq.lastCluster h hb ht).2]
  apply (Nat.mod_le _ _).trans
  cases hrow : p.row.fatType with
  | fat12 =>
    rw [hrow] at hclusters
    split_ifs at hclusters
    omega
  | fat16 =>
    rw [hrow] at hclusters
    split_ifs at hclusters
    omega
  | fat32 =>
    have hrow32 : Fat32Row _ p.row := formatRow_fat32 p.row_count_lt hrow
    have hcount := hrow32.count_lt
    have hcluster := hrow32.cluster_ge
    have hupper := h.available.2.2.2
    rw [FormatData.Fits, hrow] at hfits
    obtain ⟨hcopies, hleft⟩ := FormatData.leftSectors_fat32 cfg h hrow hwhole hfits.1
    have hlt : p.leftSectors cfg / p.row.clusterSize < 2 ^ 26 := by
      rw [Nat.div_lt_iff_lt_mul (by omega), hleft]
      rw [h.available.1] at hupper
      unfold FormatData.sharedSectors
      omega
    omega

theorem cacheSize_ok (cfg : MfsConfig) {size : ℕ} (h : 0 < size) :
    0 < cfg.cacheSize size ∧ cfg.cacheSize size ≤ size ∧ (2 ≤ cfg.cacheSize size ∨ size = 1) := by
  have hpos := cfg.fatCacheSize_pos
  unfold MfsConfig.cacheSize
  split_ifs <;> omega

/-- A drive that fits is mounted as the functions of the table need it. -/
theorem mounted_volume_ok {openFiles : Bool} (hb : p.SectorSizeOk)
    (hbuffer : p.bytesPerSector ≤ d.vol.sectorSize)
    (hreach : formatDrive cfg p openFiles d = .ok (boot, d'))
    (hmount : (mfsMountDriveInternal cfg boot d').1 = .noError)
    (hwhole : p.recordedSectors = p.numberOfSectors) (hfits : p.Fits cfg) :
    (mfsMountDriveInternal cfg boot d').2.vol.Ok := by
  obtain ⟨h, hbytes⟩ := formatDrive_ok hreach
  obtain ⟨hlow, hhigh, hdvd⟩ := hb.bounds
  have hjmp : boot 0 = 0xEB#8 := by rw [hbytes 0 (by omega), bootSector_jmp]
  have hq : (readBpb boot).Holds cfg p (p.plan cfg) := by
    rw [readBpb_congr fun o ho => hbytes o (by omega)]
    exact readBpb_bootSector cfg p (p.plan cfg)
  have hvol := mfsMountDriveInternal_cache hjmp hmount
  have hagree := (format_mount_agree_iff cfg p openFiles d hb hbuffer ⟨_, hreach⟩).mpr hfits
  rw [mfsFormat, hreach] at hagree
  have hroom := hagree.room
  have ht := hagree.fatType
  rw [hvol] at hroom ht
  change (readBpb boot).fatType = p.row.fatType at ht
  obtain ⟨htable, hlast⟩ := hq.lastCluster h hb ht
  have hsize := FormatData.fatSize_le cfg h hb
  change (readBpb boot).fatType.bits * ((readBpb boot).lastCluster + 1) ≤ _ at hroom
  have hpos : 0 < p.fatSize cfg := by
    by_contra hzero
    have hbits : 0 < (readBpb boot).fatType.bits := by
      cases (readBpb boot).fatType <;> decide
    have hmul := Nat.mul_pos hbits (Nat.succ_pos (readBpb boot).lastCluster)
    rw [Nat.eq_zero_of_not_pos hzero, Nat.zero_mul, Nat.mul_zero] at hroom
    exact absurd hmul (Nat.not_lt.mpr hroom)
  obtain ⟨hcpos, hcle, hctwo⟩ := cacheSize_ok cfg hpos
  rw [hvol]
  refine ⟨?_, ?_, ?_, ?_, ?_, ?_, ?_, ?_, ?_⟩ <;>
    simp only [Bpb.volume, hq.sectorSize, htable, hq.numberOfFat]
  · omega
  · omega
  · exact hcpos
  · exact hcle
  · exact hctwo
  · exact cfg.numOfFats_pos
  · omega
  · exact lastCluster_le h hb hq hwhole hfits ht
  · exact hroom

/-- A device of 512-byte sectors that has not been mounted. -/
def blankDrive : Drive where
  vol := ⟨.fat12, 512, 0, 0, 0, 0, 0, 0, false⟩
  fatCache := fun _ => 0
  fatCacheStart := 0
  fatCacheDirty := false
  freeCount := 0
  device := fun _ _ => 0
  ioFault := fun _ => none
  ioCount := 0

/-- The default configuration. -/
def defaultConfig : MfsConfig := ⟨1, 2, by decide, by decide, by decide⟩

/-- What `MFS_Default_Format` asks for on a device of `n` sectors of 512 bytes. -/
def defaultFormat (n : ℕ) (h : n < 2 ^ 32) : FormatData where
  physicalDrive := 0x80
  mediaDescriptor := 0xF8
  bytesPerSector := 512
  sectorsPerTrack := 0
  numberOfHeads := 0
  numberOfSectors := n
  hiddenSectors := 0
  reservedSectors := 0
  bytesPerSector_lt := by decide
  numberOfSectors_lt := h
  hiddenSectors_lt := by decide
  reservedSectors_lt := by decide

theorem exists_ok_of_toBool {ε α : Type} {y : Except ε α} (h : y.toBool = true) :
    ∃ r, y = .ok r := by
  cases y with
  | error e => cases h
  | ok r => exact ⟨r, rfl⟩

theorem small_drive_agrees : FormatAgrees (defaultFormat 348 (by decide))
    ((defaultFormat 348 (by decide)).fatSize defaultConfig)
    (mfsFormat defaultConfig (defaultFormat 348 (by decide)) false blankDrive).2.vol := by
  apply (format_mount_agree_iff defaultConfig (defaultFormat 348 (by decide)) false blankDrive
    ⟨9, by decide, by decide, rfl⟩ (by decide) (exists_ok_of_toBool (by decide +kernel))).mpr
  show FormatData.Fits12 _ _
  unfold FormatData.Fits12
  decide +kernel

/-- Two sectors more, and the last two clusters have no entry. -/
theorem entries_outside_table : ¬ ∀ (cfg : MfsConfig) (p : FormatData) (d : Drive),
    p.SectorSizeOk → p.bytesPerSector ≤ d.vol.sectorSize →
    (∃ r, formatDrive cfg p false d = .ok r) →
    FormatAgrees p (p.fatSize cfg) (mfsFormat cfg p false d).2.vol := by
  intro hall
  have hagree := hall defaultConfig (defaultFormat 350 (by decide)) blankDrive
    ⟨9, by decide, by decide, rfl⟩ (by decide) (exists_ok_of_toBool (by decide +kernel))
  have hroom := hagree.room
  revert hroom
  decide +kernel

end Mqx.Mfs
