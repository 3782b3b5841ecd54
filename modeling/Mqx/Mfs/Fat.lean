import Mqx.Mfs.Drive
import Mathlib.Data.BitVec

/-!
# Entries of the file allocation table

`mfsPutFat` and `mfsGetClusterFromFat` for the three entry formats. As a bit
string the table is an array: entry `e` of a `w`-bit table occupies the bits
from `w * e` on, wherever bytes and sectors end, and a write changes the low
twelve, sixteen or twenty-eight of them.
-/

namespace Mqx.Mfs

open Mqx.Library

/-! ## Codes -/

def clusterUnused : BitVec 32 := 0x00000000#32
def clusterBad : BitVec 32 := 0x0FFFFFF7#32
def clusterEof : BitVec 32 := 0x0FFFFFFF#32

/-- `CLUSTER_MIN_GOOD`. -/
def clusterMinGood : ℕ := 2

/-- `CLUSTER_MAX_12`, `CLUSTER_MAX_16` and `CLUSTER_MAX_32`: codes from here on
end a chain. -/
def clusterMax : FatType → BitVec 32
  | .fat12 => 0x00000FF8#32
  | .fat16 => 0x0000FFF8#32
  | .fat32 => 0x0FFFFFF8#32

/-- `FSI_UNKNOWN`, a free count that is not kept. -/
def fsiUnknown : ℕ := 0xFFFFFFFF

/-! ## Bytes of an entry

The macros of `mfs_prv.h`, on the bytes `b` at `p`. -/

def ftoh0 (b : ℕ → Byte) (p : ℕ) : BitVec 32 :=
  (b p).setWidth 32 ||| ((b (p + 1) &&& 0x0F#8).setWidth 32 <<< 8)

def ftoh1 (b : ℕ → Byte) (p : ℕ) : BitVec 32 :=
  ((b p &&& 0xF0#8).setWidth 32 >>> 4) ||| ((b (p + 1)).setWidth 32 <<< 4)

def mqxDtohs (b : ℕ → Byte) (p : ℕ) : BitVec 32 :=
  (b p).setWidth 32 ||| ((b (p + 1)).setWidth 32 <<< 8)

def mqxDtohl (b : ℕ → Byte) (p : ℕ) : BitVec 32 :=
  (b p).setWidth 32 ||| ((b (p + 1)).setWidth 32 <<< 8) |||
    ((b (p + 2)).setWidth 32 <<< 16) ||| ((b (p + 3)).setWidth 32 <<< 24)

def htof0 (b : ℕ → Byte) (p : ℕ) (x : BitVec 32) : ℕ → Byte :=
  Function.update (Function.update b p (x.setWidth 8)) (p + 1)
    ((b (p + 1) &&& 0xF0#8) ||| ((x >>> 8).setWidth 8 &&& 0x0F#8))

def htof1 (b : ℕ → Byte) (p : ℕ) (x : BitVec 32) : ℕ → Byte :=
  Function.update (Function.update b p ((b p &&& 0x0F#8) ||| ((x <<< 4).setWidth 8 &&& 0xF0#8)))
    (p + 1) ((x >>> 4).setWidth 8)

def mqxHtods (b : ℕ → Byte) (p : ℕ) (x : BitVec 32) : ℕ → Byte :=
  Function.update (Function.update b p (x.setWidth 8)) (p + 1) ((x >>> 8).setWidth 8)

def htof32 (b : ℕ → Byte) (p : ℕ) (x : BitVec 32) : ℕ → Byte :=
  Function.update (Function.update (Function.update (Function.update b
    (p + 3) ((b (p + 3) &&& 0xF0#8) ||| ((x >>> 24).setWidth 8 &&& 0x0F#8)))
    (p + 2) ((x >>> 16).setWidth 8)) (p + 1) ((x >>> 8).setWidth 8)) p (x.setWidth 8)

/-- The entry at `p` as the host sees it. -/
def fatRead (t : FatType) (b : ℕ → Byte) (p fatEntry : ℕ) : BitVec 32 :=
  match t with
  | .fat12 => if fatEntry % 2 = 0 then ftoh0 b p else ftoh1 b p
  | .fat16 => mqxDtohs b p
  | .fat32 => mqxDtohl b p

/-- The bytes after `code` is written to the entry at `p`. -/
def fatWrite (t : FatType) (b : ℕ → Byte) (p fatEntry : ℕ) (code : BitVec 32) : ℕ → Byte :=
  match t with
  | .fat12 => if fatEntry % 2 = 0 then htof0 b p code else htof1 b p code
  | .fat16 => mqxHtods b p code
  | .fat32 => htof32 b p code

/-- The byte offset of an entry, in 32 bits. -/
def fatOffset (t : FatType) (fatEntry : ℕ) : ℕ :=
  match t with
  | .fat16 => fatEntry * 2 % 2 ^ 32
  | .fat12 => (fatEntry + fatEntry / 2) % 2 ^ 32
  | .fat32 => fatEntry * 4 % 2 ^ 32

/-! ## Reading and writing entries -/

/-- The code an entry stands for: chain ends are made one code. -/
def clusterNumber (t : FatType) (raw : BitVec 32) : BitVec 32 :=
  (if raw ≥ clusterMax t then clusterEof else raw) &&& 0x0FFFFFFF#32

def mfsGetClusterFromFat (d : Drive) (fatEntry : ℕ) : MfsError × BitVec 32 × Drive :=
  if fatEntry > d.vol.lastCluster then (.invalidClusterNumber, clusterEof &&& 0x0FFFFFFF#32, d)
  else if fatEntry < clusterMinGood then
    (.invalidClusterNumber, clusterEof &&& 0x0FFFFFFF#32, d)
  else
    let offset := fatOffset d.vol.fatType fatEntry
    let r := mfsReadFat d offset
    if r.1 = .noError then
      (.noError, clusterNumber d.vol.fatType (fatRead d.vol.fatType r.2.fatCache
        (offset - r.2.fatCacheStart * d.vol.sectorSize) fatEntry), r.2)
    else (r.1, clusterEof &&& 0x0FFFFFFF#32, r.2)

def mfsIncrementFreeClusters (d : Drive) : Drive :=
  if d.vol.readOnly then d
  else if d.freeCount ≠ fsiUnknown then { d with freeCount := (d.freeCount + 1) % 2 ^ 32 } else d

def mfsDecrementFreeClusters (d : Drive) : Drive :=
  if d.vol.readOnly then d
  else if d.freeCount ≠ fsiUnknown then
    { d with freeCount := (d.freeCount + (2 ^ 32 - 1)) % 2 ^ 32 }
  else d

/-- The end of `MFS_Put_fat`, once the window holds the entry at `pos`. -/
def putFatEntry (d : Drive) (pos fatEntry : ℕ) (code : BitVec 32) : Drive :=
  let codePrev := fatRead d.vol.fatType d.fatCache pos fatEntry
  let d₁ := { d with
    fatCacheDirty := true
    fatCache := fatWrite d.vol.fatType d.fatCache pos fatEntry code }
  if code = clusterUnused ∧ codePrev ≠ clusterUnused then mfsIncrementFreeClusters d₁
  else if code ≠ clusterUnused ∧ codePrev = clusterUnused then mfsDecrementFreeClusters d₁
  else d₁

def mfsPutFat (d : Drive) (fatEntry : ℕ) (code : BitVec 32) : MfsError × Drive :=
  if d.vol.readOnly then (.diskIsWriteProtected, d)
  else if fatEntry > d.vol.lastCluster then (.invalidClusterNumber, d)
  else if fatEntry < clusterMinGood then (.invalidClusterNumber, d)
  else
    let offset := fatOffset d.vol.fatType fatEntry
    let r := mfsReadFat d offset
    if r.1 = .noError then
      (.noError, putFatEntry r.2 (offset - r.2.fatCacheStart * r.2.vol.sectorSize) fatEntry code)
    else r

/-! ## Entries as bit fields -/

/-- The bits of an entry that a write sets. -/
def FatType.codeBits : FatType → ℕ
  | fat12 => 12
  | fat16 => 16
  | fat32 => 28

/-- The bytes the macros touch. -/
def FatType.entryBytes : FatType → ℕ
  | fat12 => 2
  | fat16 => 2
  | fat32 => 4

theorem ftoh0_bit (b : ℕ → Byte) (p : ℕ) {k : ℕ} (hk : k < 12) :
    (ftoh0 b p).getLsbD k = bitAt b (8 * p + k) := by
  rw [bitAt_add]
  interval_cases k <;> simp [ftoh0]

theorem ftoh1_bit (b : ℕ → Byte) (p : ℕ) {k : ℕ} (hk : k < 12) :
    (ftoh1 b p).getLsbD k = bitAt b (8 * p + (4 + k)) := by
  rw [bitAt_add]
  interval_cases k <;> simp [ftoh1]

theorem mqxDtohs_bit (b : ℕ → Byte) (p : ℕ) {k : ℕ} (hk : k < 16) :
    (mqxDtohs b p).getLsbD k = bitAt b (8 * p + k) := by
  rw [bitAt_add]
  interval_cases k <;> simp [mqxDtohs]

theorem mqxDtohl_bit (b : ℕ → Byte) (p : ℕ) {k : ℕ} (hk : k < 32) :
    (mqxDtohl b p).getLsbD k = bitAt b (8 * p + k) := by
  rw [bitAt_add]
  interval_cases k <;> simp [mqxDtohl]

/-- Bit `j` of the table after a write of `code` to the bits from `lo` to `hi`. -/
def fieldBit (b : ℕ → Byte) (lo hi : ℕ) (code : BitVec 32) (j : ℕ) : Bool :=
  if lo ≤ j ∧ j < hi then code.getLsbD (j - lo) else bitAt b j

theorem bitAt_eq_fieldBit {b c : ℕ → Byte} {p n lo hi : ℕ} {code : BitVec 32}
    (hlo : 8 * p ≤ lo) (hhi : hi ≤ 8 * (p + n))
    (hout : ∀ q, ¬(p ≤ q ∧ q < p + n) → c q = b q)
    (hin : ∀ k < 8 * n, bitAt c (8 * p + k) = fieldBit b lo hi code (8 * p + k)) (j : ℕ) :
    bitAt c j = fieldBit b lo hi code j := by
  rw [bitAt_of_window hout hin j]
  split
  · rfl
  · rw [fieldBit, if_neg (by omega)]

theorem htof0_bit (b : ℕ → Byte) (p : ℕ) (x : BitVec 32) (j : ℕ) :
    bitAt (htof0 b p x) j = fieldBit b (8 * p) (8 * p + 12) x j := by
  apply bitAt_eq_fieldBit (p := p) (n := 2) (by omega) (by omega)
  · intro q hq
    rw [htof0, Function.update_of_ne (by omega), Function.update_of_ne (by omega)]
  · intro k hk
    simp only [fieldBit, Nat.le_add_right, true_and, Nat.add_lt_add_iff_left,
      Nat.add_sub_cancel_left]
    rw [bitAt_add, bitAt_add]
    interval_cases k <;> simp [htof0]

theorem htof1_bit (b : ℕ → Byte) (p : ℕ) (x : BitVec 32) (j : ℕ) :
    bitAt (htof1 b p x) j = fieldBit b (8 * p + 4) (8 * p + 16) x j := by
  apply bitAt_eq_fieldBit (p := p) (n := 2) (by omega) (by omega)
  · intro q hq
    rw [htof1, Function.update_of_ne (by omega), Function.update_of_ne (by omega)]
  · intro k hk
    simp only [fieldBit, Nat.add_le_add_iff_left, Nat.add_lt_add_iff_left, Nat.add_sub_add_left]
    rw [bitAt_add, bitAt_add]
    interval_cases k <;> simp [htof1]

theorem mqxHtods_bit (b : ℕ → Byte) (p : ℕ) (x : BitVec 32) (j : ℕ) :
    bitAt (mqxHtods b p x) j = fieldBit b (8 * p) (8 * p + 16) x j := by
  apply bitAt_eq_fieldBit (p := p) (n := 2) (by omega) (by omega)
  · intro q hq
    rw [mqxHtods, Function.update_of_ne (by omega), Function.update_of_ne (by omega)]
  · intro k hk
    simp only [fieldBit, Nat.le_add_right, true_and, Nat.add_lt_add_iff_left,
      Nat.add_sub_cancel_left]
    rw [bitAt_add]
    interval_cases k <;> simp [mqxHtods]

theorem htof32_bit (b : ℕ → Byte) (p : ℕ) (x : BitVec 32) (j : ℕ) :
    bitAt (htof32 b p x) j = fieldBit b (8 * p) (8 * p + 28) x j := by
  apply bitAt_eq_fieldBit (p := p) (n := 4) (by omega) (by omega)
  · intro q hq
    rw [htof32, Function.update_of_ne (by omega), Function.update_of_ne (by omega),
      Function.update_of_ne (by omega), Function.update_of_ne (by omega)]
  · intro k hk
    simp only [fieldBit, Nat.le_add_right, true_and, Nat.add_lt_add_iff_left,
      Nat.add_sub_cancel_left]
    rw [bitAt_add, bitAt_add]
    interval_cases k <;> simp [htof32]

theorem fatRead_bit (t : FatType) (b : ℕ → Byte) {e k : ℕ} (he : e ≤ 0x0FFFFFEF)
    (hk : k < t.bits) :
    (fatRead t b (fatOffset t e) e).getLsbD k = bitAt b (t.bits * e + k) := by
  cases t with
  | fat12 =>
    rw [FatType.bits] at hk
    rw [fatRead]
    split
    · rw [ftoh0_bit b _ hk]
      congr 1
      simp only [fatOffset, FatType.bits]
      omega
    · rw [ftoh1_bit b _ hk]
      congr 1
      simp only [fatOffset, FatType.bits]
      omega
  | fat16 =>
    rw [FatType.bits] at hk
    rw [fatRead, mqxDtohs_bit b _ hk]
    congr 1
    simp only [fatOffset, FatType.bits]
    omega
  | fat32 =>
    rw [FatType.bits] at hk
    rw [fatRead, mqxDtohl_bit b _ hk]
    congr 1
    simp only [fatOffset, FatType.bits]
    omega

theorem fatWrite_bit (t : FatType) (b : ℕ → Byte) {e : ℕ} (he : e ≤ 0x0FFFFFEF)
    (code : BitVec 32) (j : ℕ) :
    bitAt (fatWrite t b (fatOffset t e) e code) j =
      fieldBit b (t.bits * e) (t.bits * e + t.codeBits) code j := by
  cases t with
  | fat12 =>
    rw [fatWrite]
    split
    · rw [htof0_bit]
      congr 1 <;> simp only [fatOffset, FatType.bits, FatType.codeBits] <;> omega
    · rw [htof1_bit]
      congr 1 <;> simp only [fatOffset, FatType.bits, FatType.codeBits] <;> omega
  | fat16 =>
    rw [fatWrite, mqxHtods_bit]
    congr 1 <;> simp only [fatOffset, FatType.bits, FatType.codeBits] <;> omega
  | fat32 =>
    rw [fatWrite, htof32_bit]
    congr 1 <;> simp only [fatOffset, FatType.bits, FatType.codeBits] <;> omega

/-- An entry has no bits above its width. -/
theorem fatRead_high (t : FatType) (b : ℕ → Byte) (p e : ℕ) {k : ℕ} (hk : t.bits ≤ k) :
    (fatRead t b p e).getLsbD k = false := by
  by_cases hk32 : 32 ≤ k
  · exact BitVec.getLsbD_of_ge _ _ hk32
  cases t with
  | fat12 =>
    rw [FatType.bits] at hk
    rw [fatRead]
    split
    · interval_cases k <;> simp [ftoh0]
    · interval_cases k <;> simp [ftoh1]
  | fat16 =>
    rw [FatType.bits] at hk
    rw [fatRead]
    interval_cases k <;> simp [mqxDtohs]
  | fat32 => exact absurd hk hk32

theorem codeBits_le_bits (t : FatType) : t.codeBits ≤ t.bits := by
  cases t <;> decide

/-- A write is seen by no entry but its own. -/
theorem fatRead_fatWrite_ne (t : FatType) (b : ℕ → Byte) {e e' : ℕ} (he : e ≤ 0x0FFFFFEF)
    (he' : e' ≤ 0x0FFFFFEF) (hne : e' ≠ e) (code : BitVec 32) :
    fatRead t (fatWrite t b (fatOffset t e) e code) (fatOffset t e') e' =
      fatRead t b (fatOffset t e') e' := by
  apply BitVec.eq_of_getLsbD_eq
  intro k _
  by_cases hk : k < t.bits
  · rw [fatRead_bit t _ he' hk, fatRead_bit t _ he' hk, fatWrite_bit t b he, fieldBit]
    have hcode := codeBits_le_bits t
    -- the entries lie one width apart
    have hapart : t.bits * e' + t.bits ≤ t.bits * e ∨ t.bits * e + t.bits ≤ t.bits * e' := by
      rcases Nat.lt_or_gt_of_ne hne with hlt | hlt
      · exact Or.inl (Nat.mul_le_mul_left t.bits hlt)
      · exact Or.inr (Nat.mul_le_mul_left t.bits hlt)
    rw [if_neg (by omega)]
  · rw [fatRead_high t _ _ _ (by omega), fatRead_high t _ _ _ (by omega)]

/-- A write sets the code bits of its own entry ... -/
theorem fatRead_fatWrite_mod (t : FatType) (b : ℕ → Byte) {e : ℕ} (he : e ≤ 0x0FFFFFEF)
    (code : BitVec 32) :
    (fatRead t (fatWrite t b (fatOffset t e) e code) (fatOffset t e) e).toNat % 2 ^ t.codeBits =
      code.toNat % 2 ^ t.codeBits := by
  have hcode := codeBits_le_bits t
  have hset : (fatRead t (fatWrite t b (fatOffset t e) e code) (fatOffset t e) e).setWidth
      t.codeBits = code.setWidth t.codeBits := by
    apply BitVec.eq_of_getLsbD_eq
    intro k hk
    rw [BitVec.getLsbD_setWidth, BitVec.getLsbD_setWidth, fatRead_bit t _ he (by omega),
      fatWrite_bit t b he, fieldBit, if_pos (by omega), Nat.add_sub_cancel_left]
  have hnat := congrArg BitVec.toNat hset
  rwa [BitVec.toNat_setWidth, BitVec.toNat_setWidth] at hnat

/-- ... and keeps the bits above them. -/
theorem fatRead_fatWrite_div (t : FatType) (b : ℕ → Byte) {e : ℕ} (he : e ≤ 0x0FFFFFEF)
    (code : BitVec 32) :
    (fatRead t (fatWrite t b (fatOffset t e) e code) (fatOffset t e) e).toNat / 2 ^ t.codeBits =
      (fatRead t b (fatOffset t e) e).toNat / 2 ^ t.codeBits := by
  have hshift : fatRead t (fatWrite t b (fatOffset t e) e code) (fatOffset t e) e >>> t.codeBits =
      fatRead t b (fatOffset t e) e >>> t.codeBits := by
    apply BitVec.eq_of_getLsbD_eq
    intro k _
    rw [BitVec.getLsbD_ushiftRight, BitVec.getLsbD_ushiftRight]
    by_cases hk : t.codeBits + k < t.bits
    · rw [fatRead_bit t _ he hk, fatRead_bit t _ he hk, fatWrite_bit t b he, fieldBit,
        if_neg (by omega)]
    · rw [fatRead_high t _ _ _ (by omega), fatRead_high t _ _ _ (by omega)]
  have hnat := congrArg BitVec.toNat hshift
  rwa [BitVec.toNat_ushiftRight, BitVec.toNat_ushiftRight, Nat.shiftRight_eq_div_pow,
    Nat.shiftRight_eq_div_pow] at hnat

/-- The upper nibble of the last byte of a FAT32 entry. -/
def reservedNibble (b : ℕ → Byte) (p : ℕ) : Byte := b (p + 3) >>> 4

theorem fatRead_reserved (b : ℕ → Byte) (p e : ℕ) :
    (fatRead .fat32 b p e).toNat / 2 ^ 28 = (reservedNibble b p).toNat := by
  have hshift : fatRead .fat32 b p e >>> 28 = (reservedNibble b p).setWidth 32 := by
    apply BitVec.eq_of_getLsbD_eq
    intro k hk
    rw [BitVec.getLsbD_ushiftRight, BitVec.getLsbD_setWidth, reservedNibble,
      BitVec.getLsbD_ushiftRight, fatRead]
    interval_cases k <;> simp [mqxDtohl]
  have hnat := congrArg BitVec.toNat hshift
  rw [BitVec.toNat_ushiftRight, Nat.shiftRight_eq_div_pow, BitVec.toNat_setWidth] at hnat
  rw [hnat]
  exact Nat.mod_eq_of_lt (lt_trans (reservedNibble b p).isLt (by decide))

theorem clusterNumber_toNat (t : FatType) (raw : BitVec 32) :
    (clusterNumber t raw).toNat =
      (if (clusterMax t).toNat ≤ raw.toNat then 0x0FFFFFFF else raw.toNat) % 2 ^ 28 := by
  have hmask : ∀ x : BitVec 32, (x &&& 0x0FFFFFFF#32).toNat = x.toNat % 2 ^ 28 := by
    intro x
    rw [BitVec.toNat_and]
    exact Nat.and_two_pow_sub_one_eq_mod x.toNat 28
  rw [clusterNumber, hmask]
  by_cases h : (clusterMax t).toNat ≤ raw.toNat
  · rw [if_pos h, if_pos (BitVec.le_def.mpr h)]
    rfl
  · rw [if_neg h, if_neg (fun hle => h (BitVec.le_def.mp hle))]

/-- An entry that keeps its upper bits and takes the code bits of `code` reads
as `code` when `code` is the chain end, or is below the chain ends and the
upper bits are zero. -/
theorem clusterNumber_eq_iff (t : FatType) {raw prev code : BitVec 32}
    (hmod : raw.toNat % 2 ^ t.codeBits = code.toNat % 2 ^ t.codeBits)
    (hdiv : raw.toNat / 2 ^ t.codeBits = prev.toNat / 2 ^ t.codeBits) :
    clusterNumber t raw = code ↔
      code = clusterEof ∨ code < clusterMax t ∧ prev.toNat / 2 ^ t.codeBits = 0 := by
  have heof : clusterEof.toNat = 0x0FFFFFFF := rfl
  rw [← BitVec.toNat_inj, clusterNumber_toNat, ← BitVec.toNat_inj (y := clusterEof), heof,
    BitVec.lt_def, ← hdiv]
  cases t with
  | fat12 =>
    have hmax : (clusterMax .fat12).toNat = 0xFF8 := rfl
    rw [FatType.codeBits] at *
    rw [hmax]
    split <;> omega
  | fat16 =>
    have hmax : (clusterMax .fat16).toNat = 0xFFF8 := rfl
    rw [FatType.codeBits] at *
    rw [hmax]
    split <;> omega
  | fat32 =>
    have hmax : (clusterMax .fat32).toNat = 0x0FFFFFF8 := rfl
    rw [FatType.codeBits] at *
    rw [hmax]
    split <;> omega

/-- Only FAT32 entries have bits that a write keeps. -/
theorem fatRead_div_eq_zero_iff (t : FatType) (b : ℕ → Byte) (p e : ℕ) :
    (fatRead t b p e).toNat / 2 ^ t.codeBits = 0 ↔ (t = .fat32 → reservedNibble b p = 0) := by
  have hzero : t.bits = t.codeBits → (fatRead t b p e).toNat / 2 ^ t.codeBits = 0 := by
    intro hbits
    have hshift : fatRead t b p e >>> t.codeBits = 0 := by
      apply BitVec.eq_of_getLsbD_eq
      intro k _
      rw [BitVec.getLsbD_ushiftRight, fatRead_high t b p e (by omega)]
      simp
    have hnat := congrArg BitVec.toNat hshift
    rwa [BitVec.toNat_ushiftRight, Nat.shiftRight_eq_div_pow] at hnat
  cases t with
  | fat12 => exact ⟨fun _ h => (nomatch h), fun _ => hzero rfl⟩
  | fat16 => exact ⟨fun _ h => (nomatch h), fun _ => hzero rfl⟩
  | fat32 =>
    have hres := fatRead_reserved b p e
    rw [FatType.codeBits, hres]
    constructor
    · intro h _
      exact BitVec.eq_of_toNat_eq h
    · intro h
      rw [h rfl]
      rfl

/-! ## Through the window -/

/-- What a write does to the bytes: each new byte is made from the old byte in
its place, so a write through the window is a write to the table. -/
theorem fatWrite_shift (t : FatType) {b c : ℕ → Byte} {base p e : ℕ} (code : BitVec 32)
    (h : ∀ i < t.entryBytes, c (p + i) = b (base + p + i)) (q : ℕ) (hq : c q = b (base + q)) :
    fatWrite t c p e code q = fatWrite t b (base + p) e code (base + q) := by
  cases t with
  | fat12 =>
    have h1 := h 1 (by decide)
    have h0 := h 0 (by decide)
    simp only [Nat.add_zero] at h0
    simp only [fatWrite]
    split
    · simp only [htof0, Function.update_apply, Nat.add_assoc, Nat.add_left_cancel_iff, hq, h1]
    · simp only [htof1, Function.update_apply, Nat.add_assoc, Nat.add_left_cancel_iff, hq, h0]
  | fat16 =>
    simp only [fatWrite, mqxHtods, Function.update_apply, Nat.add_assoc, Nat.add_left_cancel_iff,
      hq]
  | fat32 =>
    have h3 := h 3 (by decide)
    simp only [fatWrite, htof32, Function.update_apply, Nat.add_assoc, Nat.add_left_cancel_iff,
      hq, h3]

theorem fatWrite_outside (t : FatType) (b : ℕ → Byte) {p e q : ℕ} (code : BitVec 32)
    (hq : ¬(p ≤ q ∧ q < p + t.entryBytes)) : fatWrite t b p e code q = b q := by
  cases t with
  | fat12 =>
    rw [FatType.entryBytes] at hq
    rw [fatWrite]
    split
    · rw [htof0, Function.update_of_ne (by omega), Function.update_of_ne (by omega)]
    · rw [htof1, Function.update_of_ne (by omega), Function.update_of_ne (by omega)]
  | fat16 =>
    rw [FatType.entryBytes] at hq
    rw [fatWrite, mqxHtods, Function.update_of_ne (by omega), Function.update_of_ne (by omega)]
  | fat32 =>
    rw [FatType.entryBytes] at hq
    rw [fatWrite, htof32, Function.update_of_ne (by omega), Function.update_of_ne (by omega),
      Function.update_of_ne (by omega), Function.update_of_ne (by omega)]

theorem fatRead_shift (t : FatType) {b c : ℕ → Byte} {base p e : ℕ}
    (h : ∀ i < t.entryBytes, c (p + i) = b (base + p + i)) :
    fatRead t c p e = fatRead t b (base + p) e := by
  cases t with
  | fat12 =>
    have h0 := h 0 (by decide)
    have h1 := h 1 (by decide)
    simp only [Nat.add_zero] at h0
    simp only [fatRead, ftoh0, ftoh1, h0, h1]
  | fat16 =>
    have h0 := h 0 (by decide)
    have h1 := h 1 (by decide)
    simp only [Nat.add_zero] at h0
    simp only [fatRead, mqxDtohs, h0, h1]
  | fat32 =>
    have h0 := h 0 (by decide)
    have h1 := h 1 (by decide)
    have h2 := h 2 (by decide)
    have h3 := h 3 (by decide)
    simp only [Nat.add_zero] at h0
    simp only [fatRead, mqxDtohl, h0, h1, h2, h3]

/-- Bytes of one aligned word lie in one sector. -/
theorem div_of_aligned {n ss o i : ℕ} (hss : n ∣ ss) (ho : n ∣ o) (hi : i < n) :
    (o + i) / ss = o / ss := by
  obtain ⟨m, rfl⟩ := hss
  obtain ⟨k, rfl⟩ := ho
  rw [← Nat.div_div_eq_div_mul, ← Nat.div_div_eq_div_mul, Nat.mul_add_div (by omega),
    Nat.div_eq_of_lt hi, Nat.add_zero, Nat.mul_div_cancel_left k (by omega)]

/-- The bytes of an entry lie in the sectors that `mfsReadFat` asks for. -/
theorem entry_sector_le {v : Volume} (h : v.Ok) (e : ℕ) {i : ℕ} (hi : i < v.fatType.entryBytes) :
    (fatOffset v.fatType e + i) / v.sectorSize ≤ neededEndSector v (fatOffset v.fatType e) := by
  have hss := h.sectorSize_dvd
  unfold neededEndSector
  cases ht : v.fatType with
  | fat12 =>
    rw [ht, FatType.entryBytes] at hi
    rw [if_pos rfl]
    exact Nat.div_le_div_right (by omega)
  | fat16 =>
    rw [ht, FatType.entryBytes] at hi
    rw [if_neg (by decide)]
    apply Nat.le_of_eq
    apply div_of_aligned (Nat.dvd_of_mod_eq_zero (by omega)) (Nat.dvd_of_mod_eq_zero ?_) hi
    simp only [fatOffset]
    omega
  | fat32 =>
    rw [ht, FatType.entryBytes] at hi
    rw [if_neg (by decide)]
    apply Nat.le_of_eq
    apply div_of_aligned (Nat.dvd_of_mod_eq_zero hss) (Nat.dvd_of_mod_eq_zero ?_) hi
    simp only [fatOffset]
    omega

theorem neededEndSector_le_last (v : Volume) (e : ℕ) :
    neededEndSector v (fatOffset v.fatType e) ≤
      (fatOffset v.fatType e + (v.fatType.entryBytes - 1)) / v.sectorSize := by
  unfold neededEndSector
  split
  · rename_i ht
    rw [ht]
    exact le_refl _
  · exact Nat.div_le_div_right (Nat.le_add_right _ _)

theorem fatOffset_last_lt (t : FatType) {e : ℕ} (he : e ≤ 0x0FFFFFEF) :
    8 * (fatOffset t e + (t.entryBytes - 1)) < t.bits * (e + 1) := by
  cases t <;> simp only [fatOffset, FatType.entryBytes, FatType.bits] <;> omega

/-- The end of the entry is in the table. -/
theorem neededEndSector_lt {v : Volume} (h : v.Ok) {e : ℕ} (he : e ≤ v.lastCluster) :
    neededEndSector v (fatOffset v.fatType e) < v.fatSize := by
  have hlast := fatOffset_last_lt v.fatType (he.trans h.last_le)
  have hmono := Nat.mul_le_mul_left v.fatType.bits (Nat.add_le_add_right he 1)
  have hin : fatOffset v.fatType e + (v.fatType.entryBytes - 1) < v.fatSize * v.sectorSize := by
    have hholds := h.holds_last
    omega
  apply lt_of_le_of_lt (neededEndSector_le_last v e)
  exact Nat.div_lt_of_lt_mul (by rwa [Nat.mul_comm])

/-! ## The operations and the table -/

/-- Where the window covers an entry, its bytes are those of the cache. -/
theorem covers_entry {d : Drive} (h : d.vol.Ok) {e : ℕ}
    (hc : Covers d (fatOffset d.vol.fatType e)) {i : ℕ} (hi : i < d.vol.fatType.entryBytes) :
    d.fatCacheStart ≤ (fatOffset d.vol.fatType e + i) / d.vol.sectorSize ∧
      (fatOffset d.vol.fatType e + i) / d.vol.sectorSize <
        d.fatCacheStart + d.vol.fatCacheSize := by
  obtain ⟨hlo, hhi⟩ := hc
  constructor
  · exact hlo.trans (Nat.div_le_div_right (Nat.le_add_right _ _))
  · exact lt_of_le_of_lt (entry_sector_le h e hi) hhi

theorem window_start_le {d : Drive} {o : ℕ} (h : d.fatCacheStart ≤ o / d.vol.sectorSize) :
    d.fatCacheStart * d.vol.sectorSize ≤ o :=
  (Nat.mul_le_mul_right _ h).trans (Nat.div_mul_le_self _ _)

theorem cache_entry {d : Drive} (h : d.vol.Ok) {e : ℕ}
    (hc : Covers d (fatOffset d.vol.fatType e)) {i : ℕ} (hi : i < d.vol.fatType.entryBytes) :
    d.fatCache (fatOffset d.vol.fatType e - d.fatCacheStart * d.vol.sectorSize + i) =
      fatByte d (d.fatCacheStart * d.vol.sectorSize +
        (fatOffset d.vol.fatType e - d.fatCacheStart * d.vol.sectorSize) + i) := by
  have hstart := window_start_le hc.1
  rw [Nat.add_sub_cancel' hstart, fatByte, if_pos (covers_entry h hc hi), Nat.sub_add_comm hstart]

theorem fatRead_cache {d : Drive} (h : d.vol.Ok) {e : ℕ}
    (hc : Covers d (fatOffset d.vol.fatType e)) :
    fatRead d.vol.fatType d.fatCache
        (fatOffset d.vol.fatType e - d.fatCacheStart * d.vol.sectorSize) e =
      fatRead d.vol.fatType (fatByte d) (fatOffset d.vol.fatType e) e := by
  rw [fatRead_shift d.vol.fatType (fun i hi => cache_entry h hc hi),
    Nat.add_sub_cancel' (window_start_le hc.1)]

theorem entry_in_table {v : Volume} (h : v.Ok) {e i : ℕ} (he : e ≤ v.lastCluster)
    (hi : i < v.fatType.entryBytes) :
    (fatOffset v.fatType e + i) / v.sectorSize < v.fatSize :=
  lt_of_le_of_lt (entry_sector_le h e hi) (neededEndSector_lt h he)

/-- Entries that agree on the bytes of the table read the same. -/
theorem fatRead_congr {v : Volume} (h : v.Ok) {b c : ℕ → Byte} {e : ℕ} (he : e ≤ v.lastCluster)
    (hbc : ∀ o, o / v.sectorSize < v.fatSize → c o = b o) :
    fatRead v.fatType c (fatOffset v.fatType e) e =
      fatRead v.fatType b (fatOffset v.fatType e) e := by
  have hbytes : ∀ i < v.fatType.entryBytes,
      c (fatOffset v.fatType e + i) = b (0 + fatOffset v.fatType e + i) := by
    intro i hi
    rw [Nat.zero_add]
    exact hbc _ (entry_in_table h he hi)
  rw [fatRead_shift v.fatType hbytes, Nat.zero_add]

/-- The code of entry `e` of the table. -/
def entryCode (d : Drive) (e : ℕ) : BitVec 32 :=
  clusterNumber d.vol.fatType
    (fatRead d.vol.fatType (fatByte d) (fatOffset d.vol.fatType e) e)

theorem mfsGetClusterFromFat_noError {d d' : Drive} (h : d.InSync) {e : ℕ} {v : BitVec 32}
    (hg : mfsGetClusterFromFat d e = (.noError, v, d')) :
    e ≤ d.vol.lastCluster ∧ v = entryCode d e := by
  unfold mfsGetClusterFromFat at hg
  simp only at hg
  split at hg
  · simp at hg
  · split at hg
    · simp at hg
    · split at hg
      · rename_i hlast _ hread
        have he : e ≤ d.vol.lastCluster := by omega
        obtain ⟨d₁, hd₁⟩ : ∃ d₁, mfsReadFat d (fatOffset d.vol.fatType e) = (.noError, d₁) :=
          ⟨_, Prod.ext hread rfl⟩
        obtain ⟨hvol, _, hc, _, hbytes⟩ := mfsReadFat_noError h (neededEndSector_lt h.vol he) hd₁
        have hcache := fatRead_cache (hvol ▸ h.vol) (e := e) (hvol ▸ hc)
        rw [hvol, fatRead_congr h.vol he hbytes] at hcache
        rw [hd₁] at hg
        simp only [Prod.mk.injEq, true_and] at hg
        refine ⟨he, ?_⟩
        rw [← hg.1, hcache, entryCode]
      · rename_i hread
        exact absurd (congrArg Prod.fst hg) hread

/-- A read of an entry that the window covers succeeds. -/
theorem mfsGetClusterFromFat_of_covers {d : Drive} (h : d.vol.Ok) {e : ℕ}
    (hmin : clusterMinGood ≤ e) (he : e ≤ d.vol.lastCluster)
    (hc : Covers d (fatOffset d.vol.fatType e))
    (hin : d.fatCacheStart + d.vol.fatCacheSize ≤ d.vol.fatSize) :
    mfsGetClusterFromFat d e = (.noError, entryCode d e, d) := by
  unfold mfsGetClusterFromFat
  simp only
  rw [if_neg (by omega), if_neg (by omega), mfsReadFat_of_covers h hc hin, if_pos rfl]
  simp only
  rw [fatRead_cache h hc]
  rfl

/-- The free count apart, a successful write changes the cache. -/
theorem putFatEntry_eq (d : Drive) (pos e : ℕ) (code : BitVec 32) :
    ∃ free, putFatEntry d pos e code = { d with
      fatCacheDirty := true
      fatCache := fatWrite d.vol.fatType d.fatCache pos e code
      freeCount := free } := by
  unfold putFatEntry mfsIncrementFreeClusters mfsDecrementFreeClusters
  simp only
  split_ifs <;> exact ⟨_, rfl⟩

/-- A write to the window is the same write to the table. -/
theorem fatByte_fatWrite {d : Drive} (h : d.vol.Ok) {e : ℕ}
    (hc : Covers d (fatOffset d.vol.fatType e)) (code : BitVec 32) (free o : ℕ) :
    fatByte { d with
      fatCacheDirty := true
      fatCache := fatWrite d.vol.fatType d.fatCache
        (fatOffset d.vol.fatType e - d.fatCacheStart * d.vol.sectorSize) e code
      freeCount := free } o =
    fatWrite d.vol.fatType (fatByte d) (fatOffset d.vol.fatType e) e code o := by
  rw [fatByte]
  simp only
  split
  · rename_i hw
    have hstart := window_start_le hw.1
    have hbyte : d.fatCache (o - d.fatCacheStart * d.vol.sectorSize) = fatByte d
        (d.fatCacheStart * d.vol.sectorSize + (o - d.fatCacheStart * d.vol.sectorSize)) := by
      rw [Nat.add_sub_cancel' hstart, fatByte, if_pos hw]
    rw [fatWrite_shift d.vol.fatType code (fun i hi => cache_entry h hc hi) _ hbyte,
      Nat.add_sub_cancel' hstart, Nat.add_sub_cancel' (window_start_le hc.1)]
  · rename_i hw
    rw [fatWrite_outside, fatByte, if_neg hw]
    -- the bytes of the entry are in the window
    intro hentry
    apply hw
    have hi : o - fatOffset d.vol.fatType e < d.vol.fatType.entryBytes := by omega
    have hin := covers_entry h hc hi
    rwa [Nat.add_sub_cancel' hentry.1] at hin

/-- A successful write is a write to the table, whatever the window does. -/
theorem mfsPutFat_noError {d d' : Drive} (h : d.InSync) {e : ℕ} {code : BitVec 32}
    (hp : mfsPutFat d e code = (.noError, d')) :
    clusterMinGood ≤ e ∧ e ≤ d.vol.lastCluster ∧ d'.vol = d.vol ∧ d'.InSync ∧
      Covers d' (fatOffset d.vol.fatType e) ∧
      d'.fatCacheStart + d'.vol.fatCacheSize ≤ d'.vol.fatSize ∧
      ∀ o, o / d.vol.sectorSize < d.vol.fatSize →
        fatByte d' o = fatWrite d.vol.fatType (fatByte d) (fatOffset d.vol.fatType e) e code o := by
  unfold mfsPutFat at hp
  simp only at hp
  split at hp
  · simp at hp
  · split at hp
    · simp at hp
    · split at hp
      · simp at hp
      · rename_i hro hlast hmin
        have he : e ≤ d.vol.lastCluster := by omega
        obtain ⟨d₁, hd₁, hp⟩ := ite_noError (fun d₁ => (.noError, putFatEntry d₁
          (fatOffset d.vol.fatType e - d₁.fatCacheStart * d₁.vol.sectorSize) e code)) hp
        obtain ⟨hvol, hsync, hc, hin, hbytes⟩ :=
          mfsReadFat_noError h (neededEndSector_lt h.vol he) hd₁
        obtain ⟨free, hput⟩ := putFatEntry_eq d₁
          (fatOffset d.vol.fatType e - d₁.fatCacheStart * d₁.vol.sectorSize) e code
        have hd' := (congrArg Prod.snd hp).symm.trans hput
        subst hd'
        refine ⟨by omega, he, hvol, ?_, hc, hin, ?_⟩
        · refine ⟨hsync.vol, hsync.window, fun _ => ⟨?_, hin⟩, fun hne => absurd hne (by simp)⟩
          simp only [hvol]
          simpa using hro
        · intro o ho
          have hwrite := fatByte_fatWrite hsync.vol (e := e) (hvol ▸ hc) code free o
          rw [hvol] at hwrite ⊢
          rw [hwrite]
          have hshift : ∀ i < d.vol.fatType.entryBytes, fatByte d₁ (fatOffset d.vol.fatType e + i) =
              fatByte d (0 + fatOffset d.vol.fatType e + i) := by
            intro i hi
            rw [Nat.zero_add]
            exact hbytes _ (entry_in_table h.vol he hi)
          rw [fatWrite_shift d.vol.fatType code hshift o (by rw [Nat.zero_add]; exact hbytes o ho),
            Nat.zero_add, Nat.zero_add]

/-! ## Round trip -/

/-- Entry `e` reads as it did: whenever both reads succeed they give one code. -/
def ReadsAsBefore (d d' : Drive) (e : ℕ) : Prop :=
  ∀ v v' d₁ d₂, mfsGetClusterFromFat d e = (.noError, v, d₁) →
    mfsGetClusterFromFat d' e = (.noError, v', d₂) → v' = v

theorem readsAsBefore_of_ne {d d' : Drive} (h : d.InSync) {e : ℕ} {code : BitVec 32}
    (hp : mfsPutFat d e code = (.noError, d')) {e' : ℕ} (hne : e' ≠ e) :
    ReadsAsBefore d d' e' := by
  intro v v' d₁ d₂ hv hv'
  obtain ⟨_, he, hvol, hsync, _, _, hbytes⟩ := mfsPutFat_noError h hp
  obtain ⟨he', hv⟩ := mfsGetClusterFromFat_noError h hv
  obtain ⟨_, hv'⟩ := mfsGetClusterFromFat_noError hsync hv'
  have hlast := h.vol.last_le
  rw [hv, hv', entryCode, entryCode, hvol, fatRead_congr h.vol he' hbytes,
    fatRead_fatWrite_ne d.vol.fatType (fatByte d) (he.trans hlast) (he'.trans hlast) hne code]

/-- After a successful write the entry reads as the code of the entry written. -/
theorem mfsGetClusterFromFat_after_put {d d' : Drive} (h : d.InSync) {e : ℕ} {code : BitVec 32}
    (hp : mfsPutFat d e code = (.noError, d')) :
    mfsGetClusterFromFat d' e = (.noError, clusterNumber d.vol.fatType
      (fatRead d.vol.fatType
        (fatWrite d.vol.fatType (fatByte d) (fatOffset d.vol.fatType e) e code)
        (fatOffset d.vol.fatType e) e), d') := by
  obtain ⟨hmin, he, hvol, hsync, hc, hin, hbytes⟩ := mfsPutFat_noError h hp
  rw [mfsGetClusterFromFat_of_covers hsync.vol hmin (hvol ▸ he) (hvol ▸ hc) hin, entryCode, hvol,
    fatRead_congr h.vol he hbytes]

/-- A written code is read back, and no other entry changes, exactly when the
code is the chain end, or lies below the chain ends of the table's format and,
on a FAT32 drive, replaces an entry whose reserved nibble is zero. -/
theorem put_get_iff {d d' : Drive} (h : d.InSync) {fatEntry : ℕ} {code : BitVec 32}
    (hp : mfsPutFat d fatEntry code = (.noError, d')) :
    ((mfsGetClusterFromFat d' fatEntry).1 = .noError ∧
        (mfsGetClusterFromFat d' fatEntry).2.1 = code ∧
        ∀ e, e ≠ fatEntry → ReadsAsBefore d d' e) ↔
      code = clusterEof ∨ code < clusterMax d.vol.fatType ∧
        (d.vol.fatType = .fat32 →
          reservedNibble (fatByte d) (fatOffset .fat32 fatEntry) = 0) := by
  have he := (mfsPutFat_noError h hp).2.1.trans h.vol.last_le
  have hiff := clusterNumber_eq_iff d.vol.fatType
    (fatRead_fatWrite_mod d.vol.fatType (fatByte d) he code)
    (fatRead_fatWrite_div d.vol.fatType (fatByte d) he code)
  have hreserved : (d.vol.fatType = .fat32 →
      reservedNibble (fatByte d) (fatOffset d.vol.fatType fatEntry) = 0) ↔
      (d.vol.fatType = .fat32 →
        reservedNibble (fatByte d) (fatOffset .fat32 fatEntry) = 0) := by
    constructor
    · intro hn ht
      rw [← ht]
      exact hn ht
    · intro hn ht
      rw [ht]
      exact hn ht
  rw [fatRead_div_eq_zero_iff, hreserved] at hiff
  rw [mfsGetClusterFromFat_after_put h hp, ← hiff]
  constructor
  · intro hget
    exact hget.2.1
  · intro hcode
    exact ⟨rfl, hcode, fun e hne => readsAsBefore_of_ne h hp hne⟩

/-- A drive of `clusters` clusters just after the first two sectors of its table
were read; every fourth byte of the table is `high`, the others are zero. -/
def filledDrive (fatType : FatType) (fatSize clusters : ℕ) (high : Byte) : Drive where
  vol := {
    fatType := fatType
    sectorSize := 512
    megaSectors := 1 + 2 * fatSize + 32 + clusters
    numberOfFat := 2
    fatSize := fatSize
    fatStartSector := 1
    lastCluster := clusters + 1
    fatCacheSize := 2
    readOnly := false }
  fatCache := fun o => if o % 4 = 3 then high else 0
  fatCacheStart := 0
  fatCacheDirty := false
  freeCount := fsiUnknown
  device := fun _ o => if o % 4 = 3 then high else 0
  ioFault := fun _ => none
  ioCount := 0

theorem filledDrive_inSync (t : FatType) {fatSize clusters : ℕ} (high : Byte)
    (hsize : 2 ≤ fatSize) (hlt : fatSize < 2 ^ 32) (hlast : clusters + 1 ≤ 0x0FFFFFEF)
    (hholds : t.bits * (clusters + 1 + 1) ≤ 8 * (fatSize * 512)) :
    (filledDrive t fatSize clusters high).InSync := by
  have hsector : 512 % 4 = 0 := by decide
  constructor
  · exact ⟨Nat.zero_lt_succ _, hsector, Nat.zero_lt_succ _, hsize, Or.inl (le_refl 2),
      Nat.zero_lt_succ _, hlt, hlast, hholds⟩
  · right
    exact hsize
  · intro hne
    exact absurd hne Bool.false_ne_true
  · intro _ _ k _ o _
    have hmod : (512 * k + o) % 4 = o % 4 := by omega
    simp only [filledDrive, hmod]

/-- A bad cluster of a FAT16 drive reads as a cluster number, and a cluster
number put over a FAT32 entry with a reserved bit set reads as a chain end. -/
theorem put_get_differs :
    ((filledDrive .fat16 32 5000 0).InSync ∧
      (mfsPutFat (filledDrive .fat16 32 5000 0) 2 clusterBad).1 = .noError ∧
      (mfsGetClusterFromFat (mfsPutFat (filledDrive .fat16 32 5000 0) 2 clusterBad).2 2).2.1 =
        0x0000FFF7#32 ∧ 0x0000FFF7#32 ≠ clusterBad) ∧
    (filledDrive .fat32 1024 70000 0x10#8).InSync ∧
      (mfsPutFat (filledDrive .fat32 1024 70000 0x10#8) 2 3#32).1 = .noError ∧
      (mfsGetClusterFromFat (mfsPutFat (filledDrive .fat32 1024 70000 0x10#8) 2 3#32).2 2).2.1 =
        clusterEof ∧ clusterEof ≠ 3#32 := by
  refine ⟨⟨filledDrive_inSync .fat16 0 ?_ ?_ ?_ ?_, ?_, ?_, ?_⟩,
    filledDrive_inSync .fat32 0x10#8 ?_ ?_ ?_ ?_, ?_, ?_, ?_⟩ <;> decide

/-- Cluster 3 over a free FAT32 entry without reserved bits. -/
theorem put_get_iff_three :
    (mfsPutFat (filledDrive .fat32 1024 70000 0) 2 3#32).1 = .noError ∧
    ((mfsGetClusterFromFat (mfsPutFat (filledDrive .fat32 1024 70000 0) 2 3#32).2 2).1 =
          .noError ∧
        (mfsGetClusterFromFat (mfsPutFat (filledDrive .fat32 1024 70000 0) 2 3#32).2 2).2.1 =
          3#32 ∧
        ∀ e, e ≠ 2 → ReadsAsBefore (filledDrive .fat32 1024 70000 0)
          (mfsPutFat (filledDrive .fat32 1024 70000 0) 2 3#32).2 e) := by
  have hsync : (filledDrive .fat32 1024 70000 0).InSync :=
    filledDrive_inSync .fat32 0 (by decide) (by decide) (by decide) (by decide)
  have hput : (mfsPutFat (filledDrive .fat32 1024 70000 0) 2 3#32).1 = .noError := by decide
  refine ⟨hput, (put_get_iff hsync (Prod.ext hput rfl)).mpr ?_⟩
  right
  refine ⟨by decide, fun _ => ?_⟩
  decide

end Mqx.Mfs
