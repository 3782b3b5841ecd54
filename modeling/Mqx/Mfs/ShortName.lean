import Mathlib.Data.List.DropRight
import Mqx.Mfs.Drive

/-!
# Short names for long ones

A long file name gets an alias of the 8.3 kind: its first six characters, a tilde, a number and
the first three characters of the extension. Names are lists of characters without the zero
that ends them in memory.
-/

namespace Mqx.Mfs

def dotChar : Byte := 0x2E
def blankChar : Byte := 0x20
def tildeChar : Byte := 0x7E

/-- The characters of a string in memory. -/
structure CString where
  chars : List Byte
  noNul : 0 ∉ chars

/-- `FILENAME_SIZE`. -/
def filenameSize : ℕ := 255

/-! ## Valid names -/

/-- The characters `*?<>|":/\` a long name cannot have. -/
def lfnIllegal : List Byte := [0x2A, 0x3F, 0x3C, 0x3E, 0x7C, 0x22, 0x3A, 0x2F, 0x5C]

/-- The loop of `MFS_is_valid_lfn` behind `len` characters. -/
def isValidLfnLoop : List Byte → ℕ → Bool → Bool
  | [], _, okCharFlag => okCharFlag
  | c :: s, len, okCharFlag =>
    if len + 1 > filenameSize then false
    else if c = dotChar ∨ c = blankChar then isValidLfnLoop s (len + 1) okCharFlag
    else if c ∈ lfnIllegal then false
    else isValidLfnLoop s (len + 1) true

def mfsIsValidLfn (name : List Byte) : Bool := isValidLfnLoop name 0 false

/-- The characters a short name cannot have: blanks and `"*+,/:;<=>?[\]|`. -/
def sfnIllegal : List Byte :=
  [0x20, 0x22, 0x2A, 0x2B, 0x2C, 0x2F, 0x3A, 0x3B, 0x3C, 0x3D, 0x3E, 0x3F, 0x5B, 0x5C, 0x5D, 0x7C]

/-- The loop of `MFS_Filename_valid`. -/
def filenameValidLoop : List Byte → ℕ → ℕ → Bool → Bool
  | [], nameLen, _, _ => decide (nameLen > 0)
  | c :: s, nameLen, extLen, dotFound =>
    if c = dotChar then
      if dotFound then false
      else if nameLen = 0 then false
      else filenameValidLoop s nameLen extLen true
    else if c ∈ sfnIllegal then false
    else if dotFound then
      if extLen + 1 > 3 then false else filenameValidLoop s nameLen (extLen + 1) true
    else if nameLen + 1 > 8 then false
    else filenameValidLoop s (nameLen + 1) extLen false

def mfsFilenameValid (filename : List Byte) : Bool := filenameValidLoop filename 0 0 false

/-! ## The alias -/

/-- The characters `[];,+=`. -/
def unwantedChars : List Byte := [0x5B, 0x5D, 0x3B, 0x2C, 0x2B, 0x3D]

/-- One round of the first loop: blanks are left out, unwanted characters become underscores. -/
def replaceChar (c : Byte) : Option Byte :=
  if c ∈ unwantedChars then some 0x5F
  else if c = blankChar then none
  else some c

/-- The trailing dots removed. The source runs on in front of the string when it has only
dots, which a valid name never has. -/
def removeTrailingDots (l : List Byte) : List Byte := l.rdropWhile (· = dotChar)

/-- The search for the dot of the extension, downwards; the first position is left out. -/
def findValidDot (l : List Byte) : ℕ → Option ℕ
  | 0 => none
  | p + 1 => if l[p + 1]? = some dotChar then some (p + 1) else findValidDot l p

/-- The copy from position `i` on without the other dots. -/
def copyWithoutDots (validDot : Option ℕ) : ℕ → List Byte → List Byte
  | _, [] => []
  | i, c :: l =>
    if c = dotChar then
      if validDot = some i then c :: copyWithoutDots validDot (i + 1) l
      else copyWithoutDots validDot (i + 1) l
    else c :: copyWithoutDots validDot (i + 1) l

def capitalize (c : Byte) : Byte := if 0x61 ≤ c.toNat ∧ c.toNat ≤ 0x7A then c - 32 else c

/-- The name without blanks, unwanted characters and trailing dots. -/
def squeezeName (name : List Byte) : List Byte :=
  removeTrailingDots ((name.take filenameSize).filterMap replaceChar)

/-- The string that `MFS_lfn_to_sfn` writes. -/
def shortName (name : List Byte) : List Byte :=
  let lname1 := squeezeName name
  let validDot := findValidDot lname1 (lname1.length - 1)
  let lname2 := copyWithoutDots validDot 0 lname1
  let stem := (lname2.take 6).takeWhile (· ≠ dotChar)
  let extension :=
    if validDot ≠ none then dotChar :: (lname2.dropWhile (· ≠ dotChar)).tail.take 3 else []
  (stem ++ [tildeChar, 0x31] ++ extension).map capitalize

/-- The memory around a buffer, position 0 being its first byte, with a string and the zero
behind it stored in the buffer. -/
def storeString (m : ℤ → Byte) (l : List Byte) : ℤ → Byte := fun i =>
  if 0 ≤ i ∧ i ≤ l.length then l.getD i.toNat 0 else m i

/-- `MFS_lfn_to_sfn`, with memory for the two paths or without. -/
def mfsLfnToSfn (mem : Bool) (name : List Byte) (m : ℤ → Byte) : MfsError × (ℤ → Byte) :=
  if mem = false then (.insufficientMemory, m) else (.noError, storeString m (shortName name))

/-- The memory holds the string `l`. -/
def HoldsString (m : ℤ → Byte) (l : List Byte) : Prop :=
  (∀ i < l.length, l[i]? = some (m i) ∧ m i ≠ 0) ∧ m l.length = 0

example : shortName [0x61, 0x2E, 0x62, 0x20, 0x63, 0x2E, 0x68, 0x74, 0x6D, 0x6C] =
    [0x41, 0x42, 0x43, 0x7E, 0x31, 0x2E, 0x48, 0x54, 0x4D] := by decide

/-! ## Characters -/

/-- A character that a short name can have in its stem and its extension. -/
def PlainChar (c : Byte) : Prop := c ≠ 0 ∧ c ≠ dotChar ∧ c ∉ sfnIllegal

instance : DecidablePred PlainChar := fun c =>
  inferInstanceAs (Decidable (c ≠ 0 ∧ c ≠ dotChar ∧ c ∉ sfnIllegal))

theorem plainChar_capitalize : ∀ {c : Byte}, PlainChar c → PlainChar (capitalize c) := by decide

theorem replaceChar_plain {x : Byte} (hne : x ≠ 0) (hlegal : x ∉ lfnIllegal) :
    ∀ c ∈ replaceChar x, c = dotChar ∨ PlainChar c := by
  -- what a short name cannot have beyond a long one is replaced or left out
  have hmore : ∀ y ∈ sfnIllegal, y ∈ lfnIllegal ∨ y = blankChar ∨
      y ∈ unwantedChars := by decide
  intro c hc
  rw [replaceChar] at hc
  split_ifs at hc with hreplace hblank
  · obtain rfl := Option.some.inj hc
    exact Or.inr (by decide)
  · cases hc
  · obtain rfl := Option.some.inj hc
    by_cases hdot : x = dotChar
    · exact Or.inl hdot
    · refine Or.inr ⟨hne, hdot, fun hmem => ?_⟩
      rcases hmore x hmem with h | h | h
      · exact hlegal h
      · exact hblank h
      · exact hreplace h

theorem plainChar_digit : ∀ {k : ℕ}, k < 10 → PlainChar (BitVec.ofNat 8 (k + 48)) := by decide

theorem isValidLfnLoop_spec (s : List Byte) : ∀ {len : ℕ} {okCharFlag : Bool},
    len ≤ filenameSize → isValidLfnLoop s len okCharFlag = true →
      len + s.length ≤ filenameSize ∧ (∀ c ∈ s, c ∉ lfnIllegal) ∧
        (okCharFlag = true ∨ ∃ c ∈ s, c ≠ dotChar ∧ c ≠ blankChar) := by
  induction s with
  | nil => exact fun hlen h => ⟨hlen, by simp, Or.inl h⟩
  | cons c s ih =>
    intro len okCharFlag _ h
    rw [isValidLfnLoop] at h
    by_cases hlen : len + 1 > filenameSize
    · rw [if_pos hlen] at h
      cases h
    rw [if_neg hlen] at h
    by_cases hskip : c = dotChar ∨ c = blankChar
    · rw [if_pos hskip] at h
      obtain ⟨hsize, hlegal, hok⟩ := ih (not_lt.mp hlen) h
      have hc : c ∉ lfnIllegal := by rcases hskip with rfl | rfl <;> decide
      refine ⟨by rw [List.length_cons]; omega, List.forall_mem_cons.mpr ⟨hc, hlegal⟩, ?_⟩
      rcases hok with hok | ⟨x, hx, hgood⟩
      · exact Or.inl hok
      · exact Or.inr ⟨x, List.mem_cons_of_mem _ hx, hgood⟩
    · rw [if_neg hskip] at h
      by_cases hc : c ∈ lfnIllegal
      · rw [if_pos hc] at h
        cases h
      rw [if_neg hc] at h
      obtain ⟨hsize, hlegal, -⟩ := ih (not_lt.mp hlen) h
      refine ⟨by rw [List.length_cons]; omega, List.forall_mem_cons.mpr ⟨hc, hlegal⟩, Or.inr ?_⟩
      exact ⟨c, List.mem_cons_self, not_or.mp hskip⟩

/-- The loop passes over plain characters of the stem. -/
theorem filenameValidLoop_stem (l s : List Byte) : ∀ {n e : ℕ}, (∀ c ∈ l, PlainChar c) →
    n + l.length ≤ 8 →
      filenameValidLoop (l ++ s) n e false = filenameValidLoop s (n + l.length) e false := by
  induction l with
  | nil => exact fun _ _ => rfl
  | cons c l ih =>
    intro n e hl hn
    obtain ⟨⟨-, hdot, hlegal⟩, hrest⟩ := List.forall_mem_cons.mp hl
    rw [List.length_cons] at hn ⊢
    rw [List.cons_append, filenameValidLoop, if_neg hdot, if_neg hlegal, if_neg Bool.false_ne_true,
      if_neg (by omega), ih hrest (by omega)]
    congr 1
    omega

theorem filenameValidLoop_extension (l : List Byte) : ∀ {n e : ℕ}, (∀ c ∈ l, PlainChar c) →
    e + l.length ≤ 3 → filenameValidLoop l n e true = decide (n > 0) := by
  induction l with
  | nil => exact fun _ _ => rfl
  | cons c l ih =>
    intro n e hl he
    obtain ⟨⟨-, hdot, hlegal⟩, hrest⟩ := List.forall_mem_cons.mp hl
    rw [List.length_cons] at he
    rw [filenameValidLoop, if_neg hdot, if_neg hlegal, if_pos rfl, if_neg (by omega)]
    exact ih hrest (by omega)

/-- The extension of a short name, with its dot, if there is one. -/
def IsExtension (l : List Byte) : Prop :=
  l = [] ∨ ∃ e, l = dotChar :: e ∧ e.length ≤ 3 ∧ ∀ c ∈ e, PlainChar c

theorem mfsFilenameValid_of_parts {l e : List Byte} (hl : ∀ c ∈ l, PlainChar c)
    (hpos : 0 < l.length) (hlen : l.length ≤ 8) (he : IsExtension e) :
    mfsFilenameValid (l ++ e) = true := by
  rw [mfsFilenameValid, filenameValidLoop_stem l e hl (by omega), Nat.zero_add]
  rcases he with rfl | ⟨e, rfl, he, hplain⟩
  · exact decide_eq_true hpos
  · rw [filenameValidLoop, if_pos rfl, if_neg Bool.false_ne_true, if_neg hpos.ne',
      filenameValidLoop_extension e hplain (by omega)]
    exact decide_eq_true hpos

theorem filenameValidLoop_length_extension (s : List Byte) : ∀ {n e : ℕ}, e ≤ 3 →
    filenameValidLoop s n e true = true → e + s.length ≤ 3 := by
  induction s with
  | nil => exact fun he _ => he
  | cons c s ih =>
    intro n e _ h
    rw [filenameValidLoop, if_pos rfl, if_pos rfl] at h
    split_ifs at h with hdot hlegal hfull
    have hlen := ih (not_lt.mp hfull) h
    rw [List.length_cons]
    omega

/-- No valid short name has more than eight characters, a dot and three more. -/
theorem filenameValidLoop_length (s : List Byte) : ∀ {n : ℕ}, n ≤ 8 →
    filenameValidLoop s n 0 false = true → n + s.length ≤ 12 := by
  induction s with
  | nil => exact fun hn _ => by rw [List.length_nil]; omega
  | cons c s ih =>
    intro n hn h
    rw [filenameValidLoop, if_neg Bool.false_ne_true, if_neg Bool.false_ne_true] at h
    rw [List.length_cons]
    split_ifs at h with hdot hblank hlegal hfull
    · have hlen := filenameValidLoop_length_extension s (Nat.zero_le 3) h
      omega
    · have hlen := ih (not_lt.mp hfull) h
      omega

/-! ## The stem of a name -/

/-- The name up to its last dot, with it. -/
def frontOf (l : List Byte) : List Byte := l.rdropWhile (· ≠ dotChar)

/-- The characters in front of the extension. A dot in the first place starts none. -/
def stemOf (l : List Byte) : List Byte :=
  (if 2 ≤ (frontOf l).length then frontOf l else l).filter (· ≠ dotChar)

/-- The extension, with its dot. -/
def extensionOf (l : List Byte) : List Byte :=
  if 2 ≤ (frontOf l).length then dotChar :: l.rtakeWhile (· ≠ dotChar) else []

theorem findValidDot_none {l : List Byte} : ∀ {n : ℕ},
    (∀ p, 1 ≤ p → p ≤ n → l[p]? ≠ some dotChar) → findValidDot l n = none := by
  intro n
  induction n with
  | zero => exact fun _ => rfl
  | succ n ih =>
    intro h
    rw [findValidDot, if_neg (h (n + 1) (by omega) le_rfl)]
    exact ih fun p hmin hmax => h p hmin (by omega)

theorem findValidDot_some {l : List Byte} {p : ℕ} (hp : 1 ≤ p) (hdot : l[p]? = some dotChar) :
    ∀ {n : ℕ}, p ≤ n → (∀ i, p < i → i ≤ n → l[i]? ≠ some dotChar) →
      findValidDot l n = some p := by
  intro n
  induction n with
  | zero => intro h; omega
  | succ n ih =>
    intro hle hnone
    rw [findValidDot]
    rcases Nat.eq_or_lt_of_le hle with rfl | hlt
    · rw [if_pos hdot]
    · rw [if_neg (hnone (n + 1) hlt le_rfl)]
      exact ih (by omega) fun i hmin hmax => hnone i hmin (by omega)

theorem copyWithoutDots_none (l : List Byte) : ∀ i,
    copyWithoutDots none i l = l.filter (· ≠ dotChar) := by
  induction l with
  | nil => exact fun _ => rfl
  | cons c l ih =>
    intro i
    rw [copyWithoutDots, ih]
    by_cases hdot : c = dotChar
    · simp [hdot]
    · simp [hdot]

theorem copyWithoutDots_some {b : List Byte} (hb : dotChar ∉ b) (a : List Byte) : ∀ i,
    copyWithoutDots (some (i + a.length)) i (a ++ dotChar :: b) =
      a.filter (· ≠ dotChar) ++ dotChar :: b := by
  induction a with
  | nil =>
    intro i
    have hrest : ∀ (l : List Byte) (j k : ℕ), dotChar ∉ l → copyWithoutDots (some k) j l = l := by
      intro l
      induction l with
      | nil => exact fun _ _ _ => rfl
      | cons c l ih =>
        intro j k hl
        rw [List.mem_cons, not_or] at hl
        rw [copyWithoutDots, if_neg (Ne.symm hl.1), ih _ _ hl.2]
    rw [List.nil_append, copyWithoutDots, if_pos rfl, List.length_nil, Nat.add_zero, if_pos rfl,
      hrest b _ _ hb]
    rfl
  | cons c a ih =>
    intro i
    have hi : i + (c :: a).length = i + 1 + a.length := by rw [List.length_cons]; omega
    rw [hi, List.cons_append, copyWithoutDots, ih]
    by_cases hdot : c = dotChar
    · rw [if_pos hdot, if_neg (by simp; omega)]
      simp [hdot]
    · rw [if_neg hdot]
      simp [hdot]

/-- Cutting a list at its last dot. -/
theorem frontOf_cases (l : List Byte) : (dotChar ∉ l ∧ frontOf l = []) ∨
    ∃ a b, l = a ++ dotChar :: b ∧ dotChar ∉ b ∧ frontOf l = a ++ [dotChar] ∧
      l.rtakeWhile (· ≠ dotChar) = b := by
  induction l using List.reverseRecOn with
  | nil => exact Or.inl ⟨List.not_mem_nil, rfl⟩
  | append_singleton l c ih =>
    by_cases hdot : c = dotChar
    · right
      refine ⟨l, [], by rw [hdot], List.not_mem_nil, ?_, ?_⟩
      · rw [frontOf, List.rdropWhile_concat_neg _ _ _ (by simp [hdot]), hdot]
      · rw [List.rtakeWhile_concat_neg _ _ _ (by simp [hdot])]
    · have hfront : frontOf (l ++ [c]) = frontOf l := by
        rw [frontOf, List.rdropWhile_concat_pos _ _ _ (by simpa using hdot), frontOf]
      rcases ih with ⟨hnone, hnil⟩ | ⟨a, b, hl, hb, hsplit, htake⟩
      · left
        exact ⟨by simp [hnone, Ne.symm hdot], hfront.trans hnil⟩
      · right
        refine ⟨a, b ++ [c], by rw [hl]; simp, by simp [hb, Ne.symm hdot], hfront.trans hsplit, ?_⟩
        rw [List.rtakeWhile_concat_pos _ _ _ (by simpa using hdot), htake]

theorem stemOf_plain {l : List Byte} (h : ∀ c ∈ l, c = dotChar ∨ PlainChar c) :
    ∀ c ∈ stemOf l, PlainChar c := by
  intro c hc
  rw [stemOf, List.mem_filter] at hc
  obtain ⟨hmem, hdot⟩ := hc
  have hl : c ∈ l := by
    split at hmem
    · exact (List.rdropWhile_prefix _ _).subset hmem
    · exact hmem
  exact (h c hl).resolve_left (by simpa using hdot)

/-- Taking six characters, or fewer up to the dot. -/
theorem takeWhile_stem {x : List Byte} (hx : dotChar ∉ x) (y : List Byte) (n : ℕ) :
    ((x ++ dotChar :: y).take n).takeWhile (· ≠ dotChar) = x.take n ∧
      (x.take n).takeWhile (· ≠ dotChar) = x.take n := by
  induction x generalizing n with
  | nil =>
    cases n with
    | zero => exact ⟨rfl, rfl⟩
    | succ n => exact ⟨by simp, rfl⟩
  | cons c x ih =>
    rw [List.mem_cons, not_or] at hx
    cases n with
    | zero => exact ⟨rfl, rfl⟩
    | succ n =>
      obtain ⟨hdot, hplain⟩ := ih hx.2 n
      simp only [List.cons_append, List.take_succ_cons]
      rw [List.takeWhile_cons_of_pos (by simpa using Ne.symm hx.1), hdot,
        List.takeWhile_cons_of_pos (by simpa using Ne.symm hx.1), hplain]
      exact ⟨rfl, rfl⟩

theorem dropWhile_stem {x : List Byte} (hx : dotChar ∉ x) (y : List Byte) :
    (x ++ dotChar :: y).dropWhile (· ≠ dotChar) = dotChar :: y := by
  induction x with
  | nil => simp
  | cons c x ih =>
    rw [List.mem_cons, not_or] at hx
    rw [List.cons_append, List.dropWhile_cons_of_pos (by simpa using Ne.symm hx.1)]
    exact ih hx.2

theorem dot_notMem_filter (l : List Byte) : dotChar ∉ l.filter (· ≠ dotChar) := by
  simp [List.mem_filter]

/-- The alias by the parts of the squeezed name. -/
theorem shortName_eq (name : List Byte) : shortName name =
    (((stemOf (squeezeName name)).take 6 ++ [tildeChar, 0x31]) ++
      (extensionOf (squeezeName name)).take 4).map capitalize := by
  obtain ⟨l, hl⟩ : ∃ l, squeezeName name = l := ⟨_, rfl⟩
  rw [shortName, hl]
  have hnone : findValidDot l (l.length - 1) = none → (frontOf l).length < 2 →
      (((copyWithoutDots (findValidDot l (l.length - 1)) 0 l).take 6).takeWhile (· ≠ dotChar) ++
        [tildeChar, 0x31] ++
          if findValidDot l (l.length - 1) ≠ none then dotChar ::
            ((copyWithoutDots (findValidDot l (l.length - 1)) 0 l).dropWhile (· ≠ dotChar)).tail.take 3
          else []).map capitalize =
      (((stemOf l).take 6 ++ [tildeChar, 0x31]) ++ (extensionOf l).take 4).map capitalize := by
    intro hfind hfront
    rw [hfind, copyWithoutDots_none, if_neg (not_not.mpr rfl), stemOf, extensionOf,
      if_neg (by omega), if_neg (by omega)]
    rw [(takeWhile_stem (dot_notMem_filter l) [] 6).2]
    rfl
  rcases frontOf_cases l with ⟨hdot, hfront⟩ | ⟨a, b, rfl, hb, hfront, htake⟩
  · refine hnone (findValidDot_none fun p _ _ hp => hdot (List.mem_of_getElem? hp)) ?_
    rw [hfront]
    exact Nat.zero_lt_two
  · rcases Nat.eq_zero_or_pos a.length with hzero | hpos
    · obtain rfl : a = [] := List.eq_nil_of_length_eq_zero hzero
      refine hnone (findValidDot_none fun p hmin _ hp => ?_) ?_
      · obtain ⟨p, rfl⟩ := Nat.exists_eq_add_of_le' hmin
        exact hb (List.mem_of_getElem? hp)
      · rw [hfront]
        exact Nat.one_lt_two
    · have hfind : findValidDot (a ++ dotChar :: b) ((a ++ dotChar :: b).length - 1) =
          some a.length := by
        apply findValidDot_some hpos
        · rw [List.getElem?_append_right le_rfl, Nat.sub_self, List.getElem?_cons_zero]
        · rw [List.length_append, List.length_cons]
          omega
        · intro i hmin _ hi
          obtain ⟨k, rfl⟩ := Nat.exists_eq_add_of_lt hmin
          rw [List.getElem?_append_right (by omega),
            show a.length + k + 1 - a.length = k + 1 by omega, List.getElem?_cons_succ] at hi
          exact hb (List.mem_of_getElem? hi)
      have hcopy := copyWithoutDots_some hb a 0
      rw [Nat.zero_add] at hcopy
      have hlong : 2 ≤ (frontOf (a ++ dotChar :: b)).length := by
        rw [hfront, List.length_append, List.length_singleton]
        omega
      have hstem : stemOf (a ++ dotChar :: b) = a.filter (· ≠ dotChar) := by
        rw [stemOf, if_pos hlong, hfront, List.filter_append]
        simp
      rw [hfind, hcopy, if_pos (Option.some_ne_none _), hstem, extensionOf, if_pos hlong, htake,
        (takeWhile_stem (dot_notMem_filter a) b 6).1, dropWhile_stem (dot_notMem_filter a)]
      rfl

/-! ## The alias is a valid short name -/

theorem squeezeName_plain {name : CString} (h : mfsIsValidLfn name.chars = true) :
    ∀ c ∈ squeezeName name.chars, c = dotChar ∨ PlainChar c := by
  obtain ⟨-, hlegal, -⟩ := isValidLfnLoop_spec name.chars (Nat.zero_le _) h
  intro c hc
  have hmem := (List.rdropWhile_prefix _ _).subset hc
  obtain ⟨x, hx, hreplace⟩ := List.mem_filterMap.mp hmem
  have hx' : x ∈ name.chars := List.mem_of_mem_take hx
  have hne : x ≠ 0 := fun hzero => name.noNul (hzero ▸ hx')
  exact replaceChar_plain hne (hlegal x hx') c hreplace

/-- The alias has a stem of at most six characters, and an extension of at most three. -/
theorem shortName_parts {name : CString} (h : mfsIsValidLfn name.chars = true) :
    ∃ stem extension, shortName name.chars = stem ++ [tildeChar, 0x31] ++ extension ∧
      stem.length = min 6 (stemOf (squeezeName name.chars)).length ∧
      (∀ c ∈ stem, PlainChar c) ∧ IsExtension extension := by
  have hplain := squeezeName_plain h
  refine ⟨((stemOf (squeezeName name.chars)).take 6).map capitalize,
    ((extensionOf (squeezeName name.chars)).take 4).map capitalize, ?_, ?_, ?_, ?_⟩
  · rw [shortName_eq, List.map_append, List.map_append]
    rfl
  · rw [List.length_map, List.length_take]
  · intro c hc
    obtain ⟨x, hx, rfl⟩ := List.mem_map.mp hc
    exact plainChar_capitalize (stemOf_plain hplain x (List.mem_of_mem_take hx))
  · rw [extensionOf]
    split
    · refine Or.inr ⟨((List.rtakeWhile (· ≠ dotChar) (squeezeName name.chars)).take 3).map capitalize,
        rfl, ?_, ?_⟩
      · rw [List.length_map]
        exact List.length_take_le _ _
      · intro c hc
        obtain ⟨x, hx, rfl⟩ := List.mem_map.mp hc
        have hmem := List.mem_of_mem_take hx
        have hdot : x ≠ dotChar := by simpa using List.mem_rtakeWhile_imp hmem
        exact plainChar_capitalize
          ((hplain x ((List.rtakeWhile_suffix _ _).subset hmem)).resolve_left hdot)
    · exact Or.inl rfl

theorem shortName_valid {name : CString} (h : mfsIsValidLfn name.chars = true) :
    mfsFilenameValid (shortName name.chars) = true := by
  obtain ⟨stem, extension, heq, hlen, hplain, hext⟩ := shortName_parts h
  rw [heq]
  refine mfsFilenameValid_of_parts ?_ ?_ ?_ hext
  · have hnumber : ∀ c ∈ [tildeChar, 0x31], PlainChar c := by decide
    exact List.forall_mem_append.mpr ⟨hplain, hnumber⟩
  · simp
  · rw [List.length_append, hlen, List.length_cons, List.length_singleton]
    omega

/-! ## The length of the stem -/

/-- The characters other than blanks and dots in front of the extension of a long name. -/
def stemLength (name : List Byte) : ℕ :=
  (stemOf (removeTrailingDots (name.filter (· ≠ blankChar)))).length

theorem rdropWhile_map (p : Byte → Bool) (f : Byte → Byte) (l : List Byte) :
    (l.map f).rdropWhile p = (l.rdropWhile (p ∘ f)).map f := by
  induction l using List.reverseRecOn with
  | nil => rfl
  | append_singleton l c ih =>
    rw [List.map_append, List.map_singleton, List.rdropWhile_concat, List.rdropWhile_concat, ih,
      Function.comp_apply]
    split
    · rfl
    · rw [List.map_append, List.map_singleton]

theorem stemOf_map {f : Byte → Byte} (hf : ∀ c, f c = dotChar ↔ c = dotChar) (l : List Byte) :
    stemOf (l.map f) = (stemOf l).map f := by
  have hcomp : (fun c => decide (c ≠ dotChar)) ∘ f = fun c => decide (c ≠ dotChar) :=
    funext fun c => decide_eq_decide.mpr (not_congr (hf c))
  have hfront : frontOf (l.map f) = (frontOf l).map f := by
    rw [frontOf, rdropWhile_map, hcomp, frontOf]
  rw [stemOf, stemOf, hfront, List.length_map]
  split
  · rw [List.filter_map, hcomp]
  · rw [List.filter_map, hcomp]

def underscore (c : Byte) : Byte := if c ∈ unwantedChars then 0x5F else c

theorem replaceChar_eq (c : Byte) :
    replaceChar c = if c = blankChar then none else some (underscore c) := by
  rw [replaceChar, underscore]
  split_ifs with hmem hblank
  · rw [hblank] at hmem
    exact absurd hmem (by decide)
  · rfl
  · rfl
  · rfl

theorem filterMap_replaceChar (l : List Byte) :
    l.filterMap replaceChar = (l.filter (· ≠ blankChar)).map underscore := by
  induction l with
  | nil => rfl
  | cons c l ih =>
    rw [List.filterMap_cons, replaceChar_eq, List.filter_cons]
    by_cases hblank : c = blankChar
    · simp [hblank, ih]
    · simp [hblank, ih]

theorem stemLength_eq {name : CString} (h : mfsIsValidLfn name.chars = true) :
    (stemOf (squeezeName name.chars)).length = stemLength name.chars := by
  obtain ⟨hlen, -⟩ := isValidLfnLoop_spec name.chars (Nat.zero_le _) h
  rw [Nat.zero_add] at hlen
  have hf : ∀ c, underscore c = dotChar ↔ c = dotChar := by decide
  have hcomp : (fun c => decide (c = dotChar)) ∘ underscore = fun c => decide (c = dotChar) :=
    funext fun c => decide_eq_decide.mpr (hf c)
  rw [squeezeName, List.take_of_length_le hlen, filterMap_replaceChar, removeTrailingDots,
    rdropWhile_map, hcomp, stemOf_map hf, List.length_map, stemLength, removeTrailingDots]

end Mqx.Mfs
