import Mathlib.Data.List.TakeWhile
import Mqx.Mfs.DirSearch

/-!
# Reading a long name

`MFS_get_lfn_of_entry` goes backwards from the entry of a file, over at most one cluster
boundary, and puts the characters of the entries it meets one after the other.
-/

namespace Mqx.Mfs

/-- `MFS_ATTR_LFN`. -/
def attrLfn : Byte := 0x0F

/-- `MFS_LFN_END`. -/
def mfsLfnEnd : Byte := 0x40

/-- Offset of `ATTR` in a directory entry. -/
def attrOffset : ℕ := 11

/-- Offset of `ALIAS_CHECKSUM` in a long name entry, whose first byte is `ID`. -/
def aliasChecksumOffset : ℕ := 13

/-- The offsets of the code units in `NAME0_4`, `NAME5_10` and `NAME11_12`. -/
def nameOffsets : List ℕ := [1, 3, 5, 7, 9, 14, 16, 18, 20, 22, 24, 28, 30]

def mfsLfnChecksum (entry : ℕ → Byte) : Byte :=
  (List.range 11).foldl
    (fun sum i => (((sum &&& 1) <<< 7) ||| ((sum &&& 0xFE) >>> 1)) + entry i) 0

/-- The characters at some of the offsets. -/
def extractAt (entry : ℕ → Byte) : List ℕ → List Byte
  | [] => []
  | o :: offsets =>
    let utf16Unit : BitVec 16 := (entry o).setWidth 16 ||| (entry (o + 1)).setWidth 16 <<< 8
    if utf16Unit = 0 ∨ utf16Unit = 0xFFFF then []
    else utf16Unit.setWidth 8 :: extractAt entry offsets

/-- `MFS_lfn_extract`, built without `MFS_EXTRACT_UTF8`. -/
def mfsLfnExtract (entry : ℕ → Byte) : List Byte := extractAt entry nameOffsets

/-- The string in a buffer. -/
def cString (buffer : List Byte) : List Byte := buffer.takeWhile (· ≠ 0)

/-- The variables of the loop; `lfn` is what stands in the buffer before the zero. -/
structure LfnReader where
  cluster : ℕ
  index : ℕ
  prevCluster : ℕ
  entryCount : ℕ
  wentBack : Bool
  lfn : List Byte
  drive : Drive

/-- A long name entry of the name with a checksum. -/
def IsLfn (sum : Byte) (entry : ℕ → Byte) : Prop :=
  entry attrOffset = attrLfn ∧ entry aliasChecksumOffset = sum

/-- The number of the entry passes the test against the count. -/
def HasCount (count : ℕ) (entry : ℕ → Byte) : Prop := (entry 0).toNat &&& count ≠ 0

instance (sum : Byte) (entry : ℕ → Byte) : Decidable (IsLfn sum entry) :=
  inferInstanceAs (Decidable (_ ∧ _))

instance (count : ℕ) (entry : ℕ → Byte) : Decidable (HasCount count entry) :=
  inferInstanceAs (Decidable (_ ≠ _))

namespace DirDisk

variable (v : DirDisk)

/-- The start of a turn of the loop at index 0: the error code and the variables. -/
def goBack (s : LfnReader) : MfsError × LfnReader :=
  let r := mfsGetPrevCluster s.drive v.rootCluster s.cluster s.prevCluster
  (r.1, { s with
    wentBack := true
    cluster := r.2.1
    index := v.entriesPerCluster
    drive := r.2.2 })

/-- The rest of a turn: what the function returns, or the variables of the next turn. -/
def readEntry (sum : Byte) (s : LfnReader) : FindResult → (MfsError × List Byte) ⊕ LfnReader
  | .missing err _ => .inl (if err ≠ .noError then err else .fileNotFound, s.lfn)
  | .found entry cluster index prevCluster d =>
    if entry attrOffset ≠ attrLfn then .inl (.fileNotFound, s.lfn)
    else if entry aliasChecksumOffset ≠ sum then .inl (.noError, s.lfn)
    else if ¬HasCount s.entryCount entry then .inl (.noError, s.lfn)
    else if entry 0 &&& mfsLfnEnd ≠ 0 then .inl (.noError, s.lfn ++ mfsLfnExtract entry)
    else .inr
      { cluster := cluster
        index := index
        prevCluster := prevCluster
        entryCount := s.entryCount + 1
        wentBack := s.wentBack
        lfn := s.lfn ++ mfsLfnExtract entry
        drive := d }

/-- The loop of `MFS_get_lfn_of_entry`, for at most `fuel` turns. Returns the error code and the
characters in the buffer; the code set at its first exit is not returned. -/
def getLfnLoop (sum : Byte) : ℕ → LfnReader → Option (MfsError × List Byte)
  | 0, _ => none
  | fuel + 1, s =>
    if s.index = 0 ∧ s.wentBack = true then some (.noError, s.lfn)
    else
      let t := if s.index = 0 then v.goBack s else (.noError, s)
      if t.1 ≠ .noError then some (t.1, s.lfn)
      else
        match v.findEntry fuel false t.2.cluster (t.2.index - 1) t.2.prevCluster t.2.drive with
        | none => none
        | some r =>
          match readEntry sum t.2 r with
          | .inl result => some result
          | .inr next => getLfnLoop sum fuel next

/-- `MFS_get_lfn_of_entry`. -/
def mfsGetLfnOfEntry (fuel : ℕ) (entry : Option (ℕ → Byte)) (cluster index prevCluster : ℕ)
    (d : Drive) : Option (MfsError × List Byte) :=
  match entry with
  | none => some (.invalidParameter, [])
  | some e => v.getLfnLoop (mfsLfnChecksum e) fuel
      { cluster := cluster
        index := index
        prevCluster := prevCluster
        entryCount := 1
        wentBack := false
        lfn := []
        drive := d }

end DirDisk

/-! ## Long names -/

/-- The entries, from the one next to the short entry on, begin with the entries `n`, `n + 1`
and so on of a long name, and `name` is what they spell. -/
inductive LongRun (sum : Byte) : ℕ → List (Option (ℕ → Byte)) → List Byte → Prop
  | last {n : ℕ} {e : ℕ → Byte} {rest : List (Option (ℕ → Byte))} (hlfn : IsLfn sum e) (hn : n < 64)
      (hid : (e 0).toNat = n + 64) : LongRun sum n (some e :: rest) (mfsLfnExtract e)
  | more {n : ℕ} {e : ℕ → Byte} {rest : List (Option (ℕ → Byte))} {name : List Byte}
      (hlfn : IsLfn sum e) (hn : n < 64) (hid : (e 0).toNat = n)
      (hrest : LongRun sum (n + 1) rest name) :
      LongRun sum n (some e :: rest) (mfsLfnExtract e ++ name)

namespace DirDisk

variable (v : DirDisk)

/-- The entries of a cluster before an index, the nearest first. -/
def slotsDown (cluster : ℕ) : ℕ → List (Option (ℕ → Byte))
  | 0 => []
  | index + 1 => v.slot cluster index :: slotsDown cluster index

/-- The hint names the cluster before `cluster` in its chain. -/
def HasPrev (d : Drive) (cluster hint : ℕ) : Prop :=
  ¬(if d.vol.fatType = .fat32 then cluster = v.rootCluster else cluster = 0) ∧
    (clusterMinGood ≤ hint ∧ hint ≤ d.vol.lastCluster) ∧ fatNext d hint = cluster

instance (d : Drive) (cluster hint : ℕ) : Decidable (v.HasPrev d cluster hint) :=
  inferInstanceAs (Decidable (_ ∧ _))

/-- The entries before an index in its cluster and in the cluster before. -/
def slotsBefore (d : Drive) (cluster index hint : ℕ) : List (Option (ℕ → Byte)) :=
  v.slotsDown cluster index ++
    if v.HasPrev d cluster hint then v.slotsDown hint v.entriesPerCluster else []

end DirDisk

/-- Nothing in the entries misleads the reader. It has taken the entries below number `n`, whose
numbers were right if `numbered`, and their characters are `text`. `crossed` says that the entries
end with the cluster before, and `earlier` are the entries in front of that. -/
def Orderly (sum : Byte) (crossed : Prop) (earlier : List (Option (ℕ → Byte))) :
    ℕ → Prop → List Byte → List (Option (ℕ → Byte)) → Prop
  | n, numbered, text, [] =>
    crossed → cString text = [] ∨ numbered ∧ 0 ∉ text ∧ LongRun sum n earlier []
  | _, _, _, none :: _ => True
  | n, numbered, text, some e :: rest =>
    if e 0 = 0 then True
    else if e 0 = delFile then cString text = []
    else if e attrOffset ≠ attrLfn then True
    else if e aliasChecksumOffset ≠ sum ∨ ¬HasCount n e then cString text = []
    else if e 0 &&& mfsLfnEnd ≠ 0 then
      cString (text ++ mfsLfnExtract e) = [] ∨
        numbered ∧ n < 64 ∧ (e 0).toNat = n + 64 ∧ 0 ∉ text ++ mfsLfnExtract e
    else Orderly sum crossed earlier (n + 1) (numbered ∧ n < 64 ∧ (e 0).toNat = n)
      (text ++ mfsLfnExtract e) rest

section

variable {sum : Byte} {n : ℕ} {e : ℕ → Byte} {rest : List (Option (ℕ → Byte))} {name : List Byte}

/-! ## Numbers -/

theorem lfnEnd_iff (b : Byte) : b &&& mfsLfnEnd ≠ 0 ↔ 64 ≤ b.toNat % 128 := by
  revert b
  decide +kernel

theorem number_and {m : ℕ} (hm : m < 64) : (m + 64) &&& m = m := by
  revert m
  decide

/-- An entry of a long name passes the tests of the reader. -/
theorem LongRun.head (h : LongRun sum n (some e :: rest) name) (hn : 1 ≤ n) :
    IsLfn sum e ∧ HasCount n e ∧ e 0 ≠ delFile := by
  have hdel : e 0 = delFile → (e 0).toNat = 229 := fun he => by
    rw [he]
    rfl
  cases h with
  | last hlfn hlt hid =>
    refine ⟨hlfn, ?_, fun he => ?_⟩
    · rw [HasCount, hid, number_and hlt]
      omega
    · have := hdel he
      omega
  | more hlfn hlt hid hrest =>
    refine ⟨hlfn, ?_, fun he => ?_⟩
    · rw [HasCount, hid, Nat.and_self]
      omega
    · have := hdel he
      omega

theorem longRun_last (hend : e 0 &&& mfsLfnEnd ≠ 0) (hlfn : IsLfn sum e) :
    LongRun sum n (some e :: rest) name ↔
      n < 64 ∧ (e 0).toNat = n + 64 ∧ name = mfsLfnExtract e := by
  rw [lfnEnd_iff] at hend
  constructor
  · intro h
    cases h with
    | last hlfn hlt hid => exact ⟨hlt, hid, rfl⟩
    | more hlfn hlt hid hrest => omega
  · rintro ⟨hlt, hid, rfl⟩
    exact .last hlfn hlt hid

theorem longRun_more (hend : ¬e 0 &&& mfsLfnEnd ≠ 0) (hlfn : IsLfn sum e) :
    LongRun sum n (some e :: rest) name ↔ n < 64 ∧ (e 0).toNat = n ∧
      ∃ more, name = mfsLfnExtract e ++ more ∧ LongRun sum (n + 1) rest more := by
  rw [lfnEnd_iff] at hend
  constructor
  · intro h
    cases h with
    | last hlfn hlt hid => omega
    | more hlfn hlt hid hrest => exact ⟨hlt, hid, _, rfl, hrest⟩
  · rintro ⟨hlt, hid, more, rfl, hrest⟩
    exact .more hlfn hlt hid hrest

/-! ## Strings -/

theorem cString_eq_self {l : List Byte} : cString l = l ↔ 0 ∉ l := by
  rw [cString, List.takeWhile_eq_self_iff]
  constructor
  · intro h hmem
    exact absurd (h 0 hmem) (by decide)
  · intro h b hb
    simp only [decide_eq_true_eq]
    rintro rfl
    exact h hb

/-- A string is its buffer with something more if nothing is more and there is no zero. -/
theorem cString_eq_append {l more : List Byte} :
    cString l = l ++ more ↔ 0 ∉ l ∧ more = [] := by
  constructor
  · intro h
    have hle : (l ++ more).length ≤ l.length := by
      rw [← h]
      exact (List.takeWhile_prefix _).length_le
    rw [List.length_append] at hle
    obtain rfl : more = [] := List.length_eq_zero_iff.mp (by omega)
    rw [List.append_nil] at h
    exact ⟨cString_eq_self.mp h, rfl⟩
  · rintro ⟨h, rfl⟩
    rw [List.append_nil, cString_eq_self.mpr h]

/-- To put the last characters once more does not make a name of nothing. -/
theorem cString_again (a b : List Byte) : cString (a ++ b ++ b) = [] ↔ cString (a ++ b) = [] := by
  cases hab : a ++ b with
  | nil =>
    obtain ⟨-, rfl⟩ := List.append_eq_nil_iff.mp hab
    rfl
  | cons x r =>
    rw [cString, cString, List.cons_append, List.takeWhile_cons, List.takeWhile_cons]
    split <;> simp

end

end Mqx.Mfs
