import Mqx.Library.Buffer
import Mqx.Mfs.DirSearch
import Mqx.Mfs.ShortName

/-!
# Names in dot format and in directory entries

Model of `MFS_Expand_dotfile` and `MFS_Compress_nondotfile`. A directory entry has eight
characters of the name and three of the extension, filled up with blanks, and `0x05` in place of
a first character `0xE5`, which marks a deleted entry.
-/

namespace Mqx.Mfs

/-! ## Expansion -/

/-- A loop of `MFS_Expand_dotfile` up to a dot: the characters written and the rest of the dot
file. -/
def expandPart : ℕ → List Byte → List Byte × List Byte
  | 0, dotFile => ([], dotFile)
  | k + 1, [] =>
    let (part, rest) := expandPart k []
    (blankChar :: part, rest)
  | k + 1, c :: dotFile =>
    if c ≠ dotChar then
      let (part, rest) := expandPart k dotFile
      (capitalize c :: part, rest)
    else
      let (part, rest) := expandPart k (c :: dotFile)
      (blankChar :: part, rest)

/-- The loop of `MFS_Expand_dotfile` behind a leading dot. -/
def expandDotted : ℕ → List Byte → List Byte
  | 0, _ => []
  | k + 1, [] => blankChar :: expandDotted k []
  | k + 1, c :: dotFile => capitalize c :: expandDotted k dotFile

/-- The replacement of a first character that marks deleted entries. -/
def guardDeleted : List Byte → List Byte
  | [] => []
  | c :: l => (if c = delFile then 0x05 else c) :: l

/-- The dot between name and extension passed over. -/
def skipDot : List Byte → List Byte
  | [] => []
  | c :: dotFile => if c = dotChar then dotFile else c :: dotFile

/-- `MFS_Expand_dotfile`. -/
def mfsExpandDotfile (dotFile : List Byte) : List Byte :=
  if dotFile.head? = some dotChar then dotChar :: expandDotted 10 dotFile.tail
  else
    let name := expandPart 8 dotFile
    let extension := expandPart 3 (skipDot name.2)
    guardDeleted (name.1 ++ extension.1)

/-! ## Compression -/

/-- The destination of `MFS_Compress_nondotfile` with its pointers. -/
structure Compression where
  dotFile : ℕ → Byte
  dPtr : ℕ
  savedDPtr : Option ℕ
  save : Bool

/-- The body of the loops of `MFS_Compress_nondotfile`. -/
def compressChar (st : Compression) (c : Byte) : Compression :=
  let st := { st with dotFile := Function.update st.dotFile st.dPtr c }
  let st :=
    if c = blankChar then
      if st.save then { st with savedDPtr := some st.dPtr, save := false } else st
    else { st with save := true }
  { st with dPtr := st.dPtr + 1 }

/-- A loop of `MFS_Compress_nondotfile` over the given characters. -/
def compressPart (st : Compression) : List Byte → Compression
  | [] => st
  | c :: source => compressPart (compressChar st c) source

/-- What ends a part: the character goes behind the last character that is not a blank. -/
def endPart (st : Compression) (c : Byte) : Compression :=
  let place := if st.save then st.dPtr else st.savedDPtr.getD 0
  { st with
    dotFile := Function.update st.dotFile place c
    dPtr := place + 1
    save := true }

/-- `MFS_Compress_nondotfile` of the eleven characters of an entry into a buffer. -/
def mfsCompressNondotfile (nondotFile : List Byte) (dotFile : ℕ → Byte) : ℕ → Byte :=
  let st : Compression := ⟨dotFile, 0, none, true⟩
  let st := endPart (compressPart st (nondotFile.take 8)) dotChar
  (endPart (compressPart st ((nondotFile.drop 8).take 3)) 0).dotFile

/-- The string in a buffer of at most `size` characters. -/
def stringOf (size : ℕ) (buf : ℕ → Byte) : List Byte :=
  ((List.range size).map buf).takeWhile (· ≠ 0)

/-! ## Valid names -/

variable {k n e : ℕ} {c : Byte} {l s ext rest : List Byte} {buf : ℕ → Byte} {st : Compression}

theorem filenameValidLoop_plain (hnul : 0 ∉ s) (he : e ≤ 3)
    (h : filenameValidLoop s n e true = true) :
    e + s.length ≤ 3 ∧ ∀ c ∈ s, PlainChar c := by
  induction s generalizing e with
  | nil => exact ⟨he, by simp⟩
  | cons c s ih =>
    rw [filenameValidLoop, if_pos rfl, if_pos rfl] at h
    rw [List.mem_cons, not_or] at hnul
    split_ifs at h with hdot hlegal hfull
    obtain ⟨hlen, hplain⟩ := ih hnul.2 (by omega) h
    rw [List.length_cons]
    exact ⟨by omega, List.forall_mem_cons.mpr ⟨⟨Ne.symm hnul.1, hdot, hlegal⟩, hplain⟩⟩

/-- What `MFS_Filename_valid` accepts is a stem with or without an extension. -/
theorem filenameValidLoop_parts (hnul : 0 ∉ s) (hn : n ≤ 8)
    (h : filenameValidLoop s n 0 false = true) :
    ∃ l ext, s = l ++ ext ∧ (∀ c ∈ l, PlainChar c) ∧ 0 < n + l.length ∧ n + l.length ≤ 8 ∧
      IsExtension ext := by
  induction s generalizing n with
  | nil =>
    rw [filenameValidLoop, decide_eq_true_eq] at h
    exact ⟨[], [], rfl, by simp, h, hn, Or.inl rfl⟩
  | cons c s ih =>
    rw [filenameValidLoop, if_neg Bool.false_ne_true, if_neg Bool.false_ne_true] at h
    rw [List.mem_cons, not_or] at hnul
    split_ifs at h with hdot hblank hlegal hfull
    · obtain ⟨hlen, hplain⟩ := filenameValidLoop_plain hnul.2 (Nat.zero_le 3) h
      refine ⟨[], c :: s, rfl, by simp, Nat.pos_of_ne_zero hblank, hn, Or.inr ⟨s, ?_⟩⟩
      rw [hdot]
      exact ⟨rfl, by omega, hplain⟩
    · obtain ⟨l, ext, rfl, hl, hpos, hlen, hext⟩ := ih hnul.2 (by omega) h
      refine ⟨c :: l, ext, rfl, ?_, by rw [List.length_cons]; omega,
        by rw [List.length_cons]; omega, hext⟩
      exact List.forall_mem_cons.mpr ⟨⟨Ne.symm hnul.1, hdot, hlegal⟩, hl⟩

/-! ## What expansion writes -/

/-- A part filled up with blanks. -/
def padded (k : ℕ) (l : List Byte) : List Byte := l ++ List.replicate (k - l.length) blankChar

/-- A string that is empty or starts with a dot. -/
def AtDot (l : List Byte) : Prop := l = [] ∨ ∃ rest, l = dotChar :: rest

theorem IsExtension.atDot (h : IsExtension ext) : AtDot ext := by
  rcases h with rfl | ⟨e, rfl, -⟩
  · exact Or.inl rfl
  · exact Or.inr ⟨e, rfl⟩

theorem expandPart_atDot (h : AtDot rest) :
    expandPart k rest = (List.replicate k blankChar, rest) := by
  induction k with
  | zero => rfl
  | succ k ih =>
    rcases h with rfl | ⟨rest, rfl⟩
    · simp [expandPart, ih, List.replicate_succ]
    · simp [expandPart, ih, List.replicate_succ]

theorem expandPart_eq (hl : ∀ c ∈ l, PlainChar c) (hlen : l.length ≤ k) (h : AtDot rest) :
    expandPart k (l ++ rest) = (padded k (l.map capitalize), rest) := by
  induction l generalizing k with
  | nil => simp [padded, expandPart_atDot h]
  | cons c l ih =>
    obtain ⟨hc, hl⟩ := List.forall_mem_cons.mp hl
    rcases k with _ | k
    · simp at hlen
    · rw [List.length_cons] at hlen
      have hk : l.length ≤ k := by omega
      simp [expandPart, ih hl hk, hc.2.1, padded]

theorem guardDeleted_length (l : List Byte) : (guardDeleted l).length = l.length := by
  cases l <;> rfl

theorem guardDeleted_padded (hl : l ≠ []) (k : ℕ) (s : List Byte) :
    guardDeleted (padded k l ++ s) = padded k (guardDeleted l) ++ s := by
  rcases l with _ | ⟨c, l⟩
  · exact absurd rfl hl
  · rfl

theorem guardDeleted_plain (hl : ∀ c ∈ l, PlainChar c) : ∀ c ∈ guardDeleted l, PlainChar c := by
  rcases l with _ | ⟨c, l⟩
  · exact hl
  · obtain ⟨hc, hl⟩ := List.forall_mem_cons.mp hl
    refine List.forall_mem_cons.mpr ⟨?_, hl⟩
    split_ifs
    · decide
    · exact hc

theorem capitalize_plain (hl : ∀ c ∈ l, PlainChar c) : ∀ c ∈ l.map capitalize, PlainChar c := by
  intro c hc
  obtain ⟨x, hx, rfl⟩ := List.mem_map.mp hc
  exact plainChar_capitalize (hl x hx)

theorem mfsExpandDotfile_eq (hl : ∀ c ∈ l, PlainChar c) (hpos : 0 < l.length)
    (hlen : l.length ≤ 8) (hext : IsExtension ext) :
    mfsExpandDotfile (l ++ ext) =
      padded 8 (guardDeleted (l.map capitalize)) ++ padded 3 (ext.tail.map capitalize) := by
  have hne : l.map capitalize ≠ [] := by
    rw [← List.length_pos_iff, List.length_map]
    exact hpos
  have hhead : (l ++ ext).head? ≠ some dotChar := by
    rcases l with _ | ⟨c, l⟩
    · simp at hpos
    · simpa using (hl c List.mem_cons_self).2.1
  have hext3 : (expandPart 3 (skipDot ext)).1 = padded 3 (ext.tail.map capitalize) := by
    rcases hext with rfl | ⟨e, rfl, he, hplain⟩
    · rfl
    · have hpart := expandPart_eq hplain he (Or.inl rfl : AtDot [])
      rw [List.append_nil] at hpart
      simp [skipDot, hpart]
  rw [mfsExpandDotfile, if_neg hhead]
  simp only [expandPart_eq hl hlen hext.atDot, hext3]
  exact guardDeleted_padded hne 8 _

/-! ## What compression writes -/

theorem compressPart_append (st : Compression) (l s : List Byte) :
    compressPart st (l ++ s) = compressPart (compressPart st l) s := by
  induction l generalizing st with
  | nil => rfl
  | cons c l ih =>
    rw [List.cons_append, compressPart, compressPart]
    exact ih _

@[simp] theorem compressChar_dPtr (st : Compression) (c : Byte) :
    (compressChar st c).dPtr = st.dPtr + 1 := by
  simp only [compressChar]
  split_ifs <;> rfl

theorem compressChar_dotFile (st : Compression) (c : Byte) :
    (compressChar st c).dotFile = Function.update st.dotFile st.dPtr c := by
  simp only [compressChar]
  split_ifs <;> rfl

theorem compressPart_before (st : Compression) (l : List Byte) :
    ∀ i < st.dPtr, (compressPart st l).dotFile i = st.dotFile i := by
  induction l generalizing st with
  | nil => exact fun i _ => rfl
  | cons c l ih =>
    intro i hi
    have hrest := ih (compressChar st c) i (by rw [compressChar_dPtr]; omega)
    rw [compressPart, hrest, compressChar_dotFile, Function.update_of_ne (by omega)]

/-- Characters that are not blanks are copied. -/
theorem compressPart_plain (st : Compression) (hl : ∀ c ∈ l, PlainChar c)
    (hsave : st.save = true) :
    HoldsAt (compressPart st l).dotFile st.dPtr l ∧
      (compressPart st l).dPtr = st.dPtr + l.length ∧ (compressPart st l).save = true := by
  induction l generalizing st with
  | nil => exact ⟨trivial, rfl, hsave⟩
  | cons c l ih =>
    obtain ⟨hc, hl⟩ := List.forall_mem_cons.mp hl
    have hblank : c ≠ blankChar := by
      rintro rfl
      exact hc.2.2 (by decide)
    have hnext : (compressChar st c).save = true := by simp [compressChar, hblank]
    obtain ⟨hholds, hptr, hend⟩ := ih (compressChar st c) hl hnext
    rw [compressChar_dPtr] at hholds hptr
    refine ⟨⟨?_, hholds⟩, ?_, hend⟩
    · rw [compressPart, compressPart_before _ _ _ (by rw [compressChar_dPtr]; omega),
        compressChar_dotFile, Function.update_self]
    · rw [compressPart, hptr, List.length_cons]
      omega

/-- Blanks behind a blank leave the saved pointer. -/
theorem compressPart_blanks (st : Compression) (n : ℕ) (hsave : st.save = false) :
    (compressPart st (List.replicate n blankChar)).savedDPtr = st.savedDPtr ∧
      (compressPart st (List.replicate n blankChar)).save = false := by
  induction n generalizing st with
  | zero => exact ⟨rfl, hsave⟩
  | succ n ih =>
    have hnext : compressChar st blankChar =
        { st with dotFile := Function.update st.dotFile st.dPtr blankChar, dPtr := st.dPtr + 1 } := by
      simp [compressChar, hsave]
    have hrest := ih (compressChar st blankChar) (by rw [hnext]; exact hsave)
    rw [List.replicate_succ, compressPart]
    rw [hrest.1, hnext]
    exact ⟨rfl, hnext ▸ hrest.2⟩

/-- A part: what is not filled up is copied and the end is put behind it. -/
theorem endPart_compressPart (st : Compression) (k : ℕ) (c : Byte) (hl : ∀ c ∈ l, PlainChar c)
    (hsave : st.save = true) :
    HoldsAt (endPart (compressPart st (padded k l)) c).dotFile st.dPtr (l ++ [c]) ∧
      (∀ i < st.dPtr, (endPart (compressPart st (padded k l)) c).dotFile i = st.dotFile i) ∧
      (endPart (compressPart st (padded k l)) c).dPtr = st.dPtr + l.length + 1 := by
  obtain ⟨hholds, hptr, hend⟩ := compressPart_plain st hl hsave
  have hbefore := compressPart_before st l
  have hpart : compressPart st (padded k l) =
      compressPart (compressPart st l) (List.replicate (k - l.length) blankChar) :=
    compressPart_append st l _
  have hblanks := compressPart_before (compressPart st l)
    (List.replicate (k - l.length) blankChar)
  rw [← hpart, hptr] at hblanks
  have hplace : (if (compressPart st (padded k l)).save then (compressPart st (padded k l)).dPtr
      else (compressPart st (padded k l)).savedDPtr.getD 0) = st.dPtr + l.length := by
    rw [hpart]
    rcases Nat.eq_zero_or_pos (k - l.length) with h | h
    · rw [h, List.replicate_zero, compressPart, if_pos hend, hptr]
    · obtain ⟨m, hm⟩ := Nat.exists_eq_add_of_lt h
      rw [Nat.zero_add] at hm
      have hfirst : (compressChar (compressPart st l) blankChar).save = false ∧
          (compressChar (compressPart st l) blankChar).savedDPtr =
            some (compressPart st l).dPtr := by
        simp [compressChar, hend]
      obtain ⟨hsaved, hoff⟩ := compressPart_blanks _ m hfirst.1
      rw [hm, List.replicate_succ, compressPart, if_neg (by rw [hoff]; decide), hsaved, hfirst.2,
        hptr]
      rfl
  have hfile : (endPart (compressPart st (padded k l)) c).dotFile =
      Function.update (compressPart st (padded k l)).dotFile (st.dPtr + l.length) c := by
    rw [endPart, hplace]
  refine ⟨?_, ?_, ?_⟩
  · rw [holdsAt_append, hfile]
    refine ⟨HoldsAt.update (hholds.congr fun j _ hj => hblanks j hj) (Or.inr (Nat.le_refl _)), ?_⟩
    exact ⟨Function.update_self _ _ _, trivial⟩
  · intro i hi
    rw [hfile, Function.update_of_ne (by omega), hblanks i (by omega), hbefore i hi]
  · rw [endPart, hplace]

/-- The string that a buffer holds. -/
theorem stringOf_eq (hnul : 0 ∉ l) (hlen : l.length < n) (h : HoldsAt buf 0 (l ++ [0])) :
    stringOf n buf = l := by
  induction l generalizing n buf with
  | nil =>
    obtain ⟨m, rfl⟩ := Nat.exists_eq_add_of_lt hlen
    have hzero : buf 0 = 0 := h.1
    simp [stringOf, List.range_succ_eq_map, hzero]
  | cons c l ih =>
    rw [List.mem_cons, not_or] at hnul
    rcases n with _ | n
    · simp at hlen
    · obtain ⟨hc, hl⟩ := h
      have hrest := ih hnul.2 (by simpa using hlen) (holdsAt_succ.mp hl)
      have hne : c ≠ 0#8 := Ne.symm hnul.1
      rw [stringOf] at hrest ⊢
      simpa [List.range_succ_eq_map, List.takeWhile_cons, Function.comp_def, hc, hne] using hrest

theorem mfsCompressNondotfile_eq {name extension : List Byte} (hname : ∀ c ∈ name, PlainChar c)
    (hlen : name.length ≤ 8) (hext : ∀ c ∈ extension, PlainChar c) (hlen' : extension.length ≤ 3)
    (buf : ℕ → Byte) :
    stringOf 13 (mfsCompressNondotfile (padded 8 name ++ padded 3 extension) buf) =
      name ++ dotChar :: extension := by
  have hfirst : (padded 8 name).length = 8 := by simp [padded]; omega
  have hsecond : (padded 3 extension).length = 3 := by simp [padded]; omega
  have htake : (padded 8 name ++ padded 3 extension).take 8 = padded 8 name := by
    rw [List.take_append_of_le_length (by omega), List.take_of_length_le (by omega)]
  have hdrop : ((padded 8 name ++ padded 3 extension).drop 8).take 3 = padded 3 extension := by
    rw [List.drop_left' hfirst, List.take_of_length_le (by omega)]
  obtain ⟨hholds, -, hptr⟩ := endPart_compressPart ⟨buf, 0, none, true⟩ 8 dotChar hname rfl
  obtain ⟨hholds', hbefore', -⟩ := endPart_compressPart
    (endPart (compressPart ⟨buf, 0, none, true⟩ (padded 8 name)) dotChar) 3 0 hext rfl
  dsimp only at hholds hptr
  rw [Nat.zero_add] at hptr
  rw [hptr] at hholds' hbefore'
  apply stringOf_eq
  · intro h
    rcases List.mem_append.mp h with h | h
    · exact (hname 0 h).1 rfl
    · rcases List.mem_cons.mp h with h | h
      · exact absurd h (by decide)
      · exact (hext 0 h).1 rfl
  · rw [List.length_append, List.length_cons]
    omega
  · rw [mfsCompressNondotfile, htake, hdrop, List.append_assoc, List.cons_append,
      ← List.singleton_append, ← List.append_assoc, holdsAt_append]
    constructor
    · refine hholds.congr fun j _ hj => hbefore' j ?_
      rw [List.length_append, List.length_singleton] at hj
      omega
    · rw [List.length_append, List.length_singleton, Nat.zero_add]
      exact hholds'

theorem capitalize_eq_delFile : ∀ {c : Byte}, capitalize c = delFile ↔ c = delFile := by decide

theorem capitalize_capitalize : ∀ {c : Byte}, capitalize (capitalize c) = capitalize c := by decide

theorem map_capitalize_capitalize (l : List Byte) :
    (l.map capitalize).map capitalize = l.map capitalize := by
  simp [capitalize_capitalize]

/-- A stem that went through expansion once stays as it is. -/
theorem guardDeleted_capitalize (l : List Byte) :
    guardDeleted ((guardDeleted (l.map capitalize)).map capitalize) =
      guardDeleted (l.map capitalize) := by
  rcases l with _ | ⟨c, l⟩
  · rfl
  · have hguard : ∀ c : Byte,
        (if capitalize (if capitalize c = delFile then 0x05 else capitalize c) = delFile then 0x05
          else capitalize (if capitalize c = delFile then 0x05 else capitalize c)) =
        if capitalize c = delFile then (0x05 : Byte) else capitalize c := by decide
    simp only [List.map_cons, guardDeleted, hguard, map_capitalize_capitalize]

/-- The string, or the string with a dot behind it. -/
def UpToTrailingDot (s l : List Byte) : Prop := s = l ∨ s = l ++ [dotChar]

/-- A valid name comes back from its directory entry in upper case, but for `0xE5` in the first
place, and an entry comes back from its name. -/
theorem name_codec (f : CString) (buf : ℕ → Byte) (hvalid : mfsFilenameValid f.chars = true) :
    (UpToTrailingDot (stringOf 13 (mfsCompressNondotfile (mfsExpandDotfile f.chars) buf))
        (f.chars.map capitalize) ↔ f.chars.head? ≠ some delFile) ∧
      mfsExpandDotfile (stringOf 13 (mfsCompressNondotfile (mfsExpandDotfile f.chars) buf)) =
        mfsExpandDotfile f.chars := by
  obtain ⟨l, ext, hf, hl, hpos, hlen, hext⟩ :=
    filenameValidLoop_parts f.noNul (Nat.zero_le 8) hvalid
  rw [Nat.zero_add] at hpos hlen
  have htail : ext.tail.length ≤ 3 ∧ ∀ c ∈ ext.tail, PlainChar c := by
    rcases hext with rfl | ⟨e, rfl, he, hplain⟩
    · simp
    · exact ⟨he, hplain⟩
  have hname := guardDeleted_plain (capitalize_plain hl)
  have htailCap := capitalize_plain htail.2
  have hnameLen : (guardDeleted (l.map capitalize)).length = l.length := by
    rw [guardDeleted_length, List.length_map]
  have hexpand := mfsExpandDotfile_eq hl hpos hlen hext
  have hcompress := mfsCompressNondotfile_eq hname (by omega) htailCap
    (by rw [List.length_map]; exact htail.1) buf
  rw [← hexpand, ← hf] at hcompress
  rw [hcompress]
  constructor
  · rw [hf]
    rcases l with _ | ⟨c, l⟩
    · simp at hpos
    by_cases hc : c = delFile
    · have hne : 5#8 ≠ delFile := by decide
      simp [UpToTrailingDot, guardDeleted, hc, hne, capitalize_eq_delFile.mpr rfl]
    · have hcap : capitalize c ≠ delFile := fun h => hc (capitalize_eq_delFile.mp h)
      have hdot : capitalize dotChar = dotChar := by decide
      have hupto : UpToTrailingDot
          (guardDeleted ((c :: l).map capitalize) ++ dotChar :: ext.tail.map capitalize)
          ((c :: l ++ ext).map capitalize) := by
        rcases hext with rfl | ⟨e, rfl, -⟩
        · exact Or.inr (by simp [guardDeleted, hcap])
        · exact Or.inl (by simp [guardDeleted, hcap, hdot])
      exact ⟨fun _ => by simpa using hc, fun _ => hupto⟩
  · have hagain := mfsExpandDotfile_eq hname (by omega) (by omega)
      (Or.inr ⟨ext.tail.map capitalize, rfl, by rw [List.length_map]; exact htail.1, htailCap⟩)
    rw [hagain, hf, hexpand, guardDeleted_capitalize, List.tail_cons, map_capitalize_capitalize]

/-- The name `a.b` comes back. -/
theorem name_codec_ab :
    UpToTrailingDot (stringOf 13 (mfsCompressNondotfile
      (mfsExpandDotfile [0x61, 0x2E, 0x62]) fun _ => 0)) ([0x61, 0x2E, 0x62].map capitalize) :=
  (name_codec ⟨[0x61, 0x2E, 0x62], by decide⟩ (fun _ => 0) (by decide)).1.mpr (by decide)

/-- The name that is the character `0xE5` comes back as the character `0x05`. -/
theorem name_codec_deleted :
    ¬ ∀ (f : CString) (buf : ℕ → Byte), mfsFilenameValid f.chars = true →
      UpToTrailingDot (stringOf 13 (mfsCompressNondotfile (mfsExpandDotfile f.chars) buf))
          (f.chars.map capitalize) ∧
        mfsExpandDotfile (stringOf 13 (mfsCompressNondotfile (mfsExpandDotfile f.chars) buf)) =
          mfsExpandDotfile f.chars := by
  intro h
  have hfirst := (h ⟨[0xE5], by decide⟩ (fun _ => 0) (by decide)).1
  revert hfirst
  rw [UpToTrailingDot]
  decide

end Mqx.Mfs
