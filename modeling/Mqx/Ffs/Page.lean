import Mathlib.Logic.Function.Basic
import Mathlib.Tactic

/-!
# Pages of a NAND block

The metadata of a page, as `ddi_metadata.cpp` reads and writes it, and the order map of a block
from `page_order_map.cpp`.
-/

namespace Mqx.Ffs

open Function (update)

/-- The status codes that the sector maps and the mapper tell apart. -/
inductive RtStatus where
  | success
  | eccFixed
  | eccFixedRewriteSector
  | eccFixFailed
  | writeFailed
  | lbasInconsistent
  | hsectoridxOutOfRange
  | other (code : ℕ)
deriving DecidableEq

/-- `is_read_status_success_or_ecc_fixed`. -/
def RtStatus.successOrEccFixed (s : RtStatus) : Bool :=
  s = .success ∨ s = .eccFixed ∨ s = .eccFixedRewriteSector

/-- The fields of the metadata. The tag bytes overlay `lba0` and `lsi`. -/
structure Metadata where
  blockStatus : UInt8
  blockNumber : UInt8
  lba0 : UInt16
  lsi : UInt16
  lba1 : UInt8
  flags : UInt8
deriving DecidableEq

namespace Metadata

def kIsHiddenBlockFlag : UInt8 := 1

def kIsInLogicalOrderFlag : UInt8 := 2

def getLba (m : Metadata) : ℕ := m.lba0.toNat + 2 ^ 16 * m.lba1.toNat

def getLsi (m : Metadata) : ℕ := m.lsi.toNat

/-- The tag bytes in big endian order, on a little endian processor. -/
def getSignature (m : Metadata) : ℕ :=
  2 ^ 24 * (m.lba0.toNat % 256) + 2 ^ 16 * (m.lba0.toNat / 256) +
    2 ^ 8 * (m.lsi.toNat % 256) + m.lsi.toNat / 256

/-- A flag is set when its bit is 0. -/
def isFlagSet (m : Metadata) (mask : UInt8) : Bool := m.flags &&& mask = 0

def isMarkedBad (m : Metadata) : Bool := m.blockStatus ≠ 0xff

/-- `erase`: all bytes `0xff`. -/
def erase : Metadata := ⟨0xff, 0xff, 0xffff, 0xffff, 0xff, 0xff⟩

def isErased (m : Metadata) : Bool := m = erase

def setFlag (m : Metadata) (mask : UInt8) : Metadata := { m with flags := m.flags &&& ~~~mask }

def clearFlag (m : Metadata) (mask : UInt8) : Metadata := { m with flags := m.flags ||| mask }

/-- `prepare` with a logical block address and sector index. -/
def prepare (lba lsi : ℕ) : Metadata :=
  { erase with
    lba0 := UInt16.ofNat lba
    lba1 := UInt8.ofNat (lba / 2 ^ 16)
    lsi := UInt16.ofNat lsi }

@[simp] theorem getLsi_setFlag (m : Metadata) (mask : UInt8) :
    (m.setFlag mask).getLsi = m.getLsi := rfl

@[simp] theorem getLsi_clearFlag (m : Metadata) (mask : UInt8) :
    (m.clearFlag mask).getLsi = m.getLsi := rfl

@[simp] theorem getLba_setFlag (m : Metadata) (mask : UInt8) :
    (m.setFlag mask).getLba = m.getLba := rfl

@[simp] theorem getLba_clearFlag (m : Metadata) (mask : UInt8) :
    (m.clearFlag mask).getLba = m.getLba := rfl

theorem getLsi_prepare (lba : ℕ) {lsi : ℕ} (h : lsi < 2 ^ 16) : (prepare lba lsi).getLsi = lsi := by
  simp only [getLsi, prepare, UInt16.toNat_ofNat']
  exact Nat.mod_eq_of_lt h

/-- The addresses of blocks have 24 bits. -/
theorem getLba_prepare {lba : ℕ} (h : lba < 2 ^ 24) (lsi : ℕ) : (prepare lba lsi).getLba = lba := by
  simp only [getLba, prepare, UInt16.toNat_ofNat', UInt8.toNat_ofNat']
  omega

/-- A page with a sector index of a block is not taken for an erased one. -/
theorem isErased_eq_false {m : Metadata} (h : m.getLsi < 0xffff) : m.isErased = false := by
  rw [isErased, decide_eq_false_iff_not]
  rintro rfl
  exact absurd h (by decide)

theorem isErased_erase : erase.isErased = true := by decide

end Metadata

/-- `PageOrderMap`: the page of a sector. The entry of a sector that is not occupied is `none`. -/
abbrev PageOrderMap := ℕ → Option ℕ

namespace PageOrderMap

def clear : PageOrderMap := fun _ => none

/-- An entry is a byte. -/
def setEntry (map : PageOrderMap) (logicalIndex physicalIndex : ℕ) : PageOrderMap :=
  update map logicalIndex (some (physicalIndex % 256))

def isOccupied (map : PageOrderMap) (logicalIndex : ℕ) : Bool := (map logicalIndex).isSome

/-- The loop of `isInSortedOrder` from an entry on. -/
def sortedFrom (map : PageOrderMap) : ℕ → ℕ → Bool
  | 0, _ => true
  | count + 1, i => if map i = some i then sortedFrom map count (i + 1) else false

def isInSortedOrder (entryCount : ℕ) (map : PageOrderMap) (entriesToCheck : ℕ) : Bool :=
  sortedFrom map (min entriesToCheck entryCount) 0

def setSortedOrder (entryCount : ℕ) : PageOrderMap :=
  fun i => if i < entryCount then some (i % 256) else none

theorem sortedFrom_iff {map : PageOrderMap} {count i : ℕ} :
    map.sortedFrom count i = true ↔ ∀ j, i ≤ j → j < i + count → map j = some j := by
  induction count generalizing i with
  | zero =>
    simp only [sortedFrom, true_iff]
    intro j hle hlt
    omega
  | succ count ih =>
    by_cases hi : map i = some i
    · simp only [sortedFrom, hi, if_true, ih]
      constructor
      · intro h j hle hlt
        rcases Nat.eq_or_lt_of_le hle with rfl | hle
        · exact hi
        · exact h j hle (by omega)
      · intro h j hle hlt
        exact h j (by omega) (by omega)
    · simp only [sortedFrom, hi, if_false, Bool.false_eq_true, false_iff]
      intro h
      exact hi (h i (Nat.le_refl i) (by omega))

theorem isInSortedOrder_iff {map : PageOrderMap} {entryCount count : ℕ} (h : count ≤ entryCount) :
    isInSortedOrder entryCount map count = true ↔ ∀ j < count, map j = some j := by
  rw [isInSortedOrder, Nat.min_eq_left h, sortedFrom_iff]
  simp

end PageOrderMap

end Mqx.Ffs
