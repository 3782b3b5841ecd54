import Mathlib.Data.List.Basic
import Mathlib.Data.Nat.Digits.Defs
import Mathlib.Data.UInt
import Mathlib.Tactic.Common

/-!
# Decoder of S-records

Model of `srecord.c`. The decoder keeps its state between two calls. Inside one call a state may
fall through to the next one, and is saved only where the data runs out. The bytes that it writes
to memory are kept as a list, the first one at the front.
-/

namespace Mqx
namespace Rtcs
namespace Srecord

/-- `SREC_state`. -/
inductive SrecState
  | hexShi
  | hexSlo
  | hexLhi
  | hexLlo
  | hexAhi
  | hexAlo
  | hexDhi
  | hexDlo
  | hexIhi
  | hexIlo
  | hexEnd
deriving DecidableEq

inductive SrecError
  | char
  | record
  | short
  | checksum
  | eof
  | endOfData
deriving DecidableEq

/-- `SREC_config`, and what is written to memory. -/
structure SrecConfig where
  state : SrecState
  dstate : SrecState
  estate : SrecState
  addr : UInt32
  data : UInt8
  sum : UInt8
  alen : UInt8
  dlen : UInt8
  stores : List (UInt32 × UInt8)

/-- The characters between two records. -/
def IsBlank (c : UInt8) : Prop := c = 32 ∨ c = 9 ∨ c = 13 ∨ c = 10 ∨ c = 0

instance : DecidablePred IsBlank := fun c =>
  inferInstanceAs (Decidable (c = 32 ∨ c = 9 ∨ c = 13 ∨ c = 10 ∨ c = 0))

/-- The value of a digit in `SREC_HI_CHAR` and `SREC_LO_CHAR`. -/
def srecChar (c : UInt8) : Option UInt8 :=
  if 48 ≤ c ∧ c ≤ 57 then some (c - 48)
  else if 65 ≤ c ∧ c ≤ 70 then some (c - 65 + 10)
  else if 97 ≤ c ∧ c ≤ 102 then some (c - 97 + 10)
  else none

/-- `SREC_start`. -/
def srecStart (g : SrecConfig) : SrecConfig := { g with state := .hexShi }

/-- The type of a record. -/
def srecType (c : UInt8) (g : SrecConfig) : Option SrecConfig :=
  if c = 48 ∨ c = 53 then some { g with alen := 2, dstate := .hexIhi, estate := .hexShi }
  else if c = 49 ∨ c = 50 ∨ c = 51 then
    some { g with alen := c - 49 + 2, dstate := .hexDhi, estate := .hexShi }
  else if c = 55 ∨ c = 56 ∨ c = 57 then
    some { g with alen := 2 + 57 - c, dstate := .hexIhi, estate := .hexEnd }
  else none

/-- `SREC_HI_CHAR` for the field `data`. -/
def hiData (c : UInt8) (g : SrecConfig) : Option SrecConfig :=
  (srecChar c).map fun d : UInt8 => { g with data := d <<< 4 }

/-- `SREC_LO_CHAR` for the field `data`, with the sum. -/
def loData (c : UInt8) (g : SrecConfig) : Option SrecConfig :=
  (srecChar c).map fun d : UInt8 => { g with data := g.data + d, sum := g.sum + (g.data + d) }

/-- The end of a record: the checksum, and the state that follows. -/
def closeRecord (g : SrecConfig) : Except SrecError (SrecConfig × Option SrecState) :=
  let g := { g with sum := g.sum + 1 }
  if g.sum &&& 0xFF ≠ 0 then .error .checksum else .ok ({ g with state := g.estate }, none)

/-- One case of the switch of `SREC_decode`, with the state it falls through to, or none after a
`break`. -/
def srecCase (s : SrecState) (c : UInt8) (g : SrecConfig) :
    Except SrecError (SrecConfig × Option SrecState) :=
  match s with
  | .hexShi =>
    if IsBlank c then .ok (g, none)
    else if c ≠ 83 ∧ c ≠ 115 then .error .char
    else .ok (g, some .hexSlo)
  | .hexSlo =>
    match srecType c g with
    | some g => .ok (g, some .hexLhi)
    | none => .error .record
  | .hexLhi =>
    match srecChar c with
    | some d => .ok ({ g with dlen := d <<< 4 }, some .hexLlo)
    | none => .error .char
  | .hexLlo =>
    match srecChar c with
    | some d =>
      let dlen := g.dlen + d
      if dlen ≤ g.alen then .error .short
      else .ok ({ g with addr := 0, sum := dlen, dlen := dlen - g.alen }, some .hexAhi)
    | none => .error .char
  | .hexAhi =>
    match hiData c g with
    | some g => .ok (g, some .hexAlo)
    | none => .error .char
  | .hexAlo =>
    match loData c g with
    | some g =>
      let g := { g with addr := g.addr <<< 8 + g.data.toUInt32, alen := g.alen - 1 }
      .ok ({ g with state := if g.alen ≠ 0 then .hexAhi else g.dstate }, none)
    | none => .error .char
  | .hexDhi =>
    match hiData c g with
    | some g => .ok (g, some .hexDlo)
    | none => .error .char
  | .hexDlo =>
    match loData c g with
    | some g =>
      let g := { g with dlen := g.dlen - 1 }
      if g.dlen = 0 then closeRecord g
      else
        .ok ({ g with stores := g.stores ++ [(g.addr, g.data)], addr := g.addr + 1,
                      state := .hexDhi }, none)
    | none => .error .char
  | .hexIhi =>
    match hiData c g with
    | some g => .ok (g, some .hexIlo)
    | none => .error .char
  | .hexIlo =>
    match loData c g with
    | some g =>
      let g := { g with dlen := g.dlen - 1 }
      if g.dlen ≠ 0 then .ok ({ g with state := .hexIhi }, none) else closeRecord g
    | none => .error .char
  | .hexEnd => if IsBlank c then .ok (g, none) else .error .char

/-- The loop of `SREC_decode`, at its head or fallen through to a state. -/
def srecLoop (pc : Option SrecState) (g : SrecConfig) : List UInt8 → Except SrecError SrecConfig
  | [] =>
    match pc with
    | some s => .ok { g with state := s }
    | none => .ok g
  | c :: data =>
    match srecCase (pc.getD g.state) c g with
    | .ok (g, next) => srecLoop next g data
    | .error e => .error e

/-- `SREC_decode`. -/
def srecDecode (g : SrecConfig) (data : List UInt8) : Except SrecError SrecConfig :=
  srecLoop none g data

/-- `SREC_eod`. -/
def srecEod (g : SrecConfig) : Except SrecError Unit :=
  match g.state with
  | .hexEnd => .ok ()
  | .hexShi => .error .endOfData
  | _ => .error .eof

/-- `SREC_start` and calls of `SREC_decode` until one of them fails. -/
def srecLoad (g : SrecConfig) (calls : List (List UInt8)) : Except SrecError SrecConfig :=
  calls.foldlM srecDecode (srecStart g)

/-! ## One character after the other -/

variable {g g' : SrecConfig} {s : SrecState} {c : UInt8}

/-- The decoder with the state saved after every character. -/
def step (g : SrecConfig) (c : UInt8) : Except SrecError SrecConfig :=
  match srecCase g.state c g with
  | .ok (g, some s) => .ok { g with state := s }
  | .ok (g, none) => .ok g
  | .error e => .error e

/-- The states inside a record. A state is fallen through to only inside a record. -/
def Inner (s : SrecState) : Prop := s ≠ .hexShi ∧ s ≠ .hexEnd

/-- Inside a record the saved state does not matter. -/
theorem step_saved (hs : Inner s) :
    step { g with state := s } c =
      match srecCase s c g with
      | .ok (g, some s) => .ok { g with state := s }
      | .ok (g, none) => .ok g
      | .error e => .error e := by
  cases s with
  | hexShi => exact absurd rfl hs.1
  | hexEnd => exact absurd rfl hs.2
  | hexSlo => simp only [step, srecCase, srecType]; split_ifs <;> rfl
  | hexLhi => simp only [step, srecCase]; cases srecChar c <;> rfl
  | hexLlo =>
    simp only [step, srecCase]
    cases srecChar c with
    | none => rfl
    | some d => by_cases h : g.dlen + d ≤ g.alen <;> simp [h]
  | hexAhi | hexDhi | hexIhi => simp only [step, srecCase, hiData]; cases srecChar c <;> rfl
  | hexAlo => simp only [step, srecCase, loData]; cases srecChar c <;> rfl
  | hexDlo | hexIlo =>
    simp only [step, srecCase, loData, closeRecord]
    cases srecChar c with
    | none => rfl
    | some d => simp only [Option.map_some]

theorem inner_of_srecCase {t : SrecState} (h : srecCase s c g = .ok (g', some t)) : Inner t := by
  cases s <;> simp only [srecCase, closeRecord] at h <;> grind [Inner]

theorem srecLoop_eq (data : List UInt8) :
    (∀ g, srecLoop none g data = data.foldlM step g) ∧
      ∀ s g, Inner s → srecLoop (some s) g data = data.foldlM step { g with state := s } := by
  induction data with
  | nil => exact ⟨fun g => rfl, fun s g hs => rfl⟩
  | cons c data ih =>
    constructor
    · intro g
      simp only [srecLoop, List.foldlM_cons, step, Option.getD_none]
      cases hcase : srecCase g.state c g with
      | error e => rfl
      | ok r =>
        obtain ⟨g', _ | t⟩ := r
        · exact ih.1 g'
        · exact ih.2 t g' (inner_of_srecCase hcase)
    · intro s g hs
      rw [List.foldlM_cons, step_saved hs]
      simp only [srecLoop, Option.getD_some]
      cases hcase : srecCase s c g with
      | error e => rfl
      | ok r =>
        obtain ⟨g', _ | t⟩ := r
        · exact ih.1 g'
        · exact ih.2 t g' (inner_of_srecCase hcase)

/-- The pieces that the text is cut into do not matter. -/
theorem foldlM_srecDecode (calls : List (List UInt8)) (g : SrecConfig) :
    calls.foldlM srecDecode g = calls.flatten.foldlM step g := by
  induction calls generalizing g with
  | nil => rfl
  | cons data calls ih =>
    rw [List.foldlM_cons, List.flatten_cons, List.foldlM_append, srecDecode, (srecLoop_eq data).1]
    exact bind_congr ih

theorem srecLoad_eq (g : SrecConfig) (calls : List (List UInt8)) :
    srecLoad g calls = calls.flatten.foldlM step (srecStart g) :=
  foldlM_srecDecode calls (srecStart g)

/-! ## One byte after the other -/

variable {hi lo : UInt8} {text : List UInt8}

/-- The byte that two digits stand for. -/
def byteOf (hi lo : UInt8) : Option UInt8 :=
  (srecChar hi).bind fun h => (srecChar lo).map fun l => h <<< 4 + l

/-- A text of two digits for each byte. -/
inductive HexBytes : List UInt8 → List UInt8 → Prop
  | nil : HexBytes [] []
  | cons {hi lo b : UInt8} {digits bytes : List UInt8} (hb : byteOf hi lo = some b)
      (hdigits : HexBytes digits bytes) : HexBytes (hi :: lo :: digits) (b :: bytes)

theorem HexBytes.append {d₁ d₂ b₁ b₂ : List UInt8} (h₁ : HexBytes d₁ b₁) (h₂ : HexBytes d₂ b₂) :
    HexBytes (d₁ ++ d₂) (b₁ ++ b₂) := by
  induction h₁ with
  | nil => exact h₂
  | cons hb _ ih => exact .cons hb ih

theorem HexBytes.split {d b₁ b₂ : List UInt8} (h : HexBytes d (b₁ ++ b₂)) :
    ∃ d₁ d₂, d = d₁ ++ d₂ ∧ HexBytes d₁ b₁ ∧ HexBytes d₂ b₂ := by
  induction b₁ generalizing d with
  | nil => exact ⟨[], d, rfl, .nil, h⟩
  | cons b b₁ ih =>
    cases h with
    | cons hb hdigits =>
      obtain ⟨d₁, d₂, rfl, h₁, h₂⟩ := ih hdigits
      exact ⟨_ :: _ :: d₁, d₂, rfl, .cons hb h₁, h₂⟩

/-- A byte of the address. -/
def readAddress (g : SrecConfig) (b : UInt8) : SrecConfig :=
  { g with data := b, sum := g.sum + b, addr := g.addr <<< 8 + b.toUInt32, alen := g.alen - 1,
           state := if g.alen - 1 ≠ 0 then .hexAhi else g.dstate }

/-- A byte of a record that stores its data. -/
def readData (g : SrecConfig) (b : UInt8) : SrecConfig :=
  { g with data := b, sum := g.sum + b, dlen := g.dlen - 1, stores := g.stores ++ [(g.addr, b)],
           addr := g.addr + 1, state := .hexDhi }

/-- A byte of a record that ignores its data. -/
def readIgnored (g : SrecConfig) (b : UInt8) : SrecConfig :=
  { g with data := b, sum := g.sum + b, dlen := g.dlen - 1, state := .hexIhi }

/-- The checksum. -/
def readSum (g : SrecConfig) (b : UInt8) : Except SrecError SrecConfig :=
  if g.sum + b + 1 ≠ 0 then .error .checksum
  else .ok { g with data := b, sum := 0, dlen := 0, state := g.estate }

/-- Two characters of a record after its type, as one byte. -/
def byteStep (g : SrecConfig) (b : UInt8) : Except SrecError SrecConfig :=
  match g.state with
  | .hexLhi =>
    if b ≤ g.alen then .error .short
    else .ok { g with addr := 0, sum := b, dlen := b - g.alen, state := .hexAhi }
  | .hexAhi => .ok (readAddress g b)
  | .hexDhi => if g.dlen = 1 then readSum g b else .ok (readData g b)
  | .hexIhi => if g.dlen = 1 then readSum g b else .ok (readIgnored g b)
  | _ => .error .char

/-- The states that wait for the first digit of a byte. -/
def AtByte (s : SrecState) : Prop := s = .hexLhi ∨ s = .hexAhi ∨ s = .hexDhi ∨ s = .hexIhi

theorem and_allOnes (b : UInt8) : b &&& 0xFF = b := by
  rw [← UInt8.toNat_inj, UInt8.toNat_and]
  exact Nat.and_two_pow_sub_one_of_lt_two_pow b.toNat_lt

theorem sub_one_eq_zero {b : UInt8} : b - 1 = 0 ↔ b = 1 := sub_eq_zero

theorem closeRecord_eq (h : g.dlen = 0) : closeRecord g =
    if g.sum + 1 ≠ 0 then .error .checksum
    else .ok ({ g with sum := 0, dlen := 0, state := g.estate }, none) := by
  obtain ⟨state, dstate, estate, addr, data, sum, alen, dlen, stores⟩ := g
  subst h
  simp only [closeRecord, and_allOnes]
  by_cases hsum : sum + 1 = 0
  · simp only [hsum, ne_eq, not_true_eq_false, if_false]
  · simp only [hsum, ne_eq, not_false_eq_true, if_true]

theorem ok_bind (f : SrecConfig → Except SrecError SrecConfig) : (Except.ok g >>= f) = f g := rfl

/-- Two steps read one byte. -/
theorem step_bind_step (hs : AtByte g.state) :
    (step g hi >>= fun g => step g lo) = (byteOf hi lo).elim (.error .char) (byteStep g) := by
  obtain ⟨state, dstate, estate, addr, data, sum, alen, dlen, stores⟩ := g
  cases hhi : srecChar hi with
  | none =>
    obtain rfl | rfl | rfl | rfl := hs <;>
      simp only [step, srecCase, hiData, byteOf, hhi, Option.map_none, Option.bind_none] <;> rfl
  | some h =>
    cases hlo : srecChar lo with
    | none =>
      obtain rfl | rfl | rfl | rfl := hs <;>
        simp only [step, srecCase, hiData, loData, byteOf, hhi, hlo, Option.map_some, ok_bind,
          Option.map_none, Option.bind_some, Option.elim_none]
    | some l =>
      simp only [byteOf, hhi, hlo, Option.map_some, Option.bind_some, Option.elim_some]
      obtain rfl | rfl | rfl | rfl := hs
      · simp only [step, srecCase, hhi, hlo, ok_bind, byteStep]
        by_cases hlen : h <<< 4 + l ≤ alen <;> simp only [hlen, if_true, if_false]
      · simp only [step, srecCase, hiData, loData, hhi, hlo, Option.map_some, ok_bind, byteStep,
          readAddress]
      · simp only [step, srecCase, hiData, loData, hhi, hlo, Option.map_some, ok_bind, byteStep]
        by_cases hlen : dlen = 1
        · rw [if_pos (sub_one_eq_zero.2 hlen), if_pos hlen, closeRecord_eq (sub_one_eq_zero.2 hlen)]
          simp only [readSum]
          split_ifs <;> rfl
        · rw [if_neg (mt sub_one_eq_zero.1 hlen), if_neg hlen]
          rfl
      · simp only [step, srecCase, hiData, loData, hhi, hlo, Option.map_some, ok_bind, byteStep]
        by_cases hlen : dlen = 1
        · rw [if_neg (not_not.2 (sub_one_eq_zero.2 hlen)), if_pos hlen,
            closeRecord_eq (sub_one_eq_zero.2 hlen)]
          simp only [readSum]
          split_ifs <;> rfl
        · rw [if_pos (mt sub_one_eq_zero.1 hlen), if_neg hlen]
          rfl

/-! ## Accepted texts -/

section Accepts

variable {stores : List (UInt32 × UInt8)} {entry : UInt32} {n : ℕ}

/-- The text is decoded to its end, with all that is stored and the entry. -/
def Accepts (stores : List (UInt32 × UInt8)) (entry : UInt32) (g : SrecConfig)
    (text : List UInt8) : Prop :=
  ∃ g', text.foldlM step g = .ok g' ∧ srecEod g' = .ok () ∧ g'.stores = stores ∧ g'.addr = entry

theorem srecEod_eq_ok : srecEod g = .ok () ↔ g.state = .hexEnd := by
  unfold srecEod
  cases g.state <;> simp

theorem accepts_nil :
    Accepts stores entry g [] ↔ g.state = .hexEnd ∧ g.stores = stores ∧ g.addr = entry := by
  constructor
  · rintro ⟨g', h, hend, hstores, hentry⟩
    cases h
    exact ⟨srecEod_eq_ok.1 hend, hstores, hentry⟩
  · rintro ⟨hend, hstores, hentry⟩
    exact ⟨g, rfl, srecEod_eq_ok.2 hend, hstores, hentry⟩

theorem accepts_cons : Accepts stores entry g (c :: text) ↔
    ∃ g₁, step g c = .ok g₁ ∧ Accepts stores entry g₁ text := by
  simp only [Accepts, List.foldlM_cons]
  cases step g c with
  | error e =>
    constructor
    · rintro ⟨g', h, _⟩
      cases h
    · rintro ⟨g₁, h, _⟩
      cases h
  | ok g₁ =>
    constructor
    · intro h
      exact ⟨g₁, rfl, h⟩
    · rintro ⟨_, ⟨⟩, h⟩
      exact h

theorem step_at_byte (hs : AtByte g.state) (h : step g c = .ok g') : g'.state ≠ .hexEnd := by
  obtain ⟨state, dstate, estate, addr, data, sum, alen, dlen, stores⟩ := g
  obtain rfl | rfl | rfl | rfl := hs <;>
  · simp only [step, srecCase, hiData] at h
    cases hc : srecChar c with
    | none => simp [hc] at h
    | some d =>
      simp only [hc, Option.map_some, Except.ok.injEq] at h
      simp [← h]

/-- A record is left out of a text only after two digits. -/
theorem accepts_byte (hs : AtByte g.state) : Accepts stores entry g text ↔
    ∃ hi lo b rest g₁, text = hi :: lo :: rest ∧ byteOf hi lo = some b ∧
      byteStep g b = .ok g₁ ∧ Accepts stores entry g₁ rest := by
  constructor
  · intro h
    obtain _ | ⟨hi, _ | ⟨lo, rest⟩⟩ := text
    · have hend := (accepts_nil.1 h).1
      simp [AtByte, hend] at hs
    · obtain ⟨g₁, hstep, h⟩ := accepts_cons.1 h
      exact absurd (accepts_nil.1 h).1 (step_at_byte hs hstep)
    · obtain ⟨g₁, hhi, h⟩ := accepts_cons.1 h
      obtain ⟨g₂, hlo, h⟩ := accepts_cons.1 h
      have htwo := @step_bind_step g hi lo hs
      rw [hhi, ok_bind, hlo] at htwo
      cases hb : byteOf hi lo with
      | none =>
        rw [hb] at htwo
        cases htwo
      | some b =>
        rw [hb] at htwo
        exact ⟨hi, lo, b, rest, g₂, rfl, hb, htwo.symm, h⟩
  · rintro ⟨hi, lo, b, rest, g₂, rfl, hb, hbyte, h⟩
    have htwo := @step_bind_step g hi lo hs
    rw [hb, Option.elim_some, hbyte] at htwo
    cases hhi : step g hi with
    | error e =>
      rw [hhi] at htwo
      cases htwo
    | ok g₁ =>
      rw [hhi, ok_bind] at htwo
      exact accepts_cons.2 ⟨g₁, hhi, accepts_cons.2 ⟨g₂, htwo, h⟩⟩

/-- A loop over the bytes of a field. `Left n` holds where `n` bytes are left. -/
theorem accepts_bytes {read : SrecConfig → UInt8 → SrecConfig} {Left : ℕ → SrecConfig → Prop}
    (hat : ∀ {n g}, Left (n + 1) g → AtByte g.state)
    (hread : ∀ {n g} b, Left (n + 1) g → byteStep g b = .ok (read g b))
    (hleft : ∀ {n g} b, Left (n + 1) g → Left n (read g b)) (h : Left n g) :
    Accepts stores entry g text ↔
      ∃ digits rest bytes, text = digits ++ rest ∧ HexBytes digits bytes ∧ bytes.length = n ∧
        Accepts stores entry (bytes.foldl read g) rest := by
  induction n generalizing g text with
  | zero =>
    constructor
    · intro hacc
      exact ⟨[], text, [], rfl, .nil, rfl, hacc⟩
    · rintro ⟨digits, rest, bytes, rfl, hdigits, hlength, hacc⟩
      cases List.eq_nil_of_length_eq_zero hlength
      cases hdigits
      exact hacc
  | succ n ih =>
    rw [accepts_byte (hat h)]
    constructor
    · rintro ⟨hi, lo, b, rest, g₁, rfl, hb, hbyte, hacc⟩
      rw [hread b h] at hbyte
      cases hbyte
      obtain ⟨digits, rest, bytes, rfl, hdigits, hlength, hacc⟩ := (ih (hleft b h)).1 hacc
      exact ⟨hi :: lo :: digits, rest, b :: bytes, rfl, .cons hb hdigits,
        congrArg Nat.succ hlength, hacc⟩
    · rintro ⟨digits, rest, bytes, rfl, hdigits, hlength, hacc⟩
      cases hdigits with
      | nil => cases hlength
      | @cons hi lo b digits bytes hb hdigits =>
        exact ⟨hi, lo, b, digits ++ rest, read g b, rfl, hb, hread b h,
          (ih (hleft b h)).2 ⟨digits, rest, bytes, rfl, hdigits, Nat.succ.inj hlength, hacc⟩⟩

theorem left_foldl {read : SrecConfig → UInt8 → SrecConfig} {Left : ℕ → SrecConfig → Prop}
    (hleft : ∀ {n g} b, Left (n + 1) g → Left n (read g b)) (bytes : List UInt8)
    (h : Left bytes.length g) : Left 0 (bytes.foldl read g) := by
  induction bytes generalizing g with
  | nil => exact h
  | cons b bytes ih => exact ih (hleft b h)

theorem uint8_toNat_sub_one {b : UInt8} (h : b.toNat = n + 1) : (b - 1).toNat = n := by
  have hle : (1 : UInt8) ≤ b := by
    rw [UInt8.le_iff_toNat_le, h]
    exact Nat.le_add_left 1 n
  rw [UInt8.toNat_sub_of_le _ _ hle, h]
  rfl

/-- `n` bytes of the address are left. -/
def AddressLeft : ℕ → SrecConfig → Prop
  | 0, g => g.state = g.dstate
  | n + 1, g => g.state = .hexAhi ∧ g.alen.toNat = n + 1

theorem addressLeft_readAddress (b : UInt8) (h : AddressLeft (n + 1) g) :
    AddressLeft n (readAddress g b) := by
  have hleft : (g.alen - 1).toNat = n := uint8_toNat_sub_one h.2
  cases n with
  | zero =>
    have hzero : g.alen - 1 = 0 := UInt8.toNat_inj.1 hleft
    simp [AddressLeft, readAddress, hzero]
  | succ n =>
    have hzero : g.alen - 1 ≠ 0 := by
      intro hzero
      rw [hzero] at hleft
      cases hleft
    exact ⟨if_pos hzero, hleft⟩

/-- `n` bytes are left before the checksum, in one of the two states that read them. -/
def BytesLeft (s : SrecState) (n : ℕ) (g : SrecConfig) : Prop :=
  g.state = s ∧ g.dlen.toNat = n + 1

theorem dlen_ne_one {s : SrecState} (h : BytesLeft s (n + 1) g) : g.dlen ≠ 1 := by
  intro hone
  have hlen := h.2
  rw [hone] at hlen
  cases hlen

theorem accepts_address (h : AddressLeft n g) : Accepts stores entry g text ↔
    ∃ digits rest address, text = digits ++ rest ∧ HexBytes digits address ∧
      address.length = n ∧ Accepts stores entry (address.foldl readAddress g) rest := by
  apply accepts_bytes _ _ addressLeft_readAddress h
  · intro n g h
    exact .inr (.inl h.1)
  · intro n g b h
    simp only [byteStep, h.1]

/-- A byte of a record that stores its data, or of one that ignores it. -/
def readRest (s : SrecState) : SrecConfig → UInt8 → SrecConfig :=
  if s = .hexDhi then readData else readIgnored

theorem accepts_rest (hs : s = .hexDhi ∨ s = .hexIhi) (h : BytesLeft s n g) :
    Accepts stores entry g text ↔
      ∃ digits rest data, text = digits ++ rest ∧ HexBytes digits data ∧
        data.length = n ∧ Accepts stores entry (data.foldl (readRest s) g) rest := by
  apply accepts_bytes _ _ _ h
  · intro n g h
    exact .inr (.inr (h.1 ▸ hs))
  · intro n g b h
    obtain rfl | rfl := hs <;> simp only [byteStep, h.1, dlen_ne_one h, if_false] <;> rfl
  · intro n g b h
    obtain rfl | rfl := hs <;> exact ⟨rfl, uint8_toNat_sub_one h.2⟩

theorem bytesLeft_foldl (hs : s = .hexDhi ∨ s = .hexIhi) {data : List UInt8}
    (h : BytesLeft s data.length g) : BytesLeft s 0 (data.foldl (readRest s) g) := by
  apply left_foldl _ data h
  intro n g b h
  obtain rfl | rfl := hs <;> exact ⟨rfl, uint8_toNat_sub_one h.2⟩

theorem accepts_sum (hs : s = .hexDhi ∨ s = .hexIhi) (h : BytesLeft s 0 g) :
    Accepts stores entry g text ↔
      ∃ digits rest sum, text = digits ++ rest ∧ HexBytes digits [sum] ∧ g.sum + sum + 1 = 0 ∧
        Accepts stores entry { g with data := sum, sum := 0, dlen := 0, state := g.estate } rest := by
  have hlast : g.dlen = 1 := UInt8.toNat_inj.1 h.2
  have hbyte (b : UInt8) : byteStep g b = readSum g b := by
    obtain rfl | rfl := hs <;> simp only [byteStep, h.1, hlast, if_true]
  rw [accepts_byte (.inr (.inr (h.1 ▸ hs)))]
  constructor
  · rintro ⟨hi, lo, b, rest, g₁, rfl, hb, hread, hacc⟩
    rw [hbyte, readSum] at hread
    split_ifs at hread with hsum
    · cases hread
      exact ⟨[hi, lo], rest, b, rfl, .cons hb .nil, not_not.1 hsum, hacc⟩
  · rintro ⟨digits, rest, sum, rfl, hdigits, hsum, hacc⟩
    cases hdigits with
    | @cons hi lo b digits bytes hb hdigits =>
      cases hdigits
      refine ⟨hi, lo, sum, rest, _, rfl, hb, ?_, hacc⟩
      rw [hbyte, readSum, if_neg (not_not.2 hsum)]

end Accepts

/-! ## Fields after a run of bytes -/

/-- The address that some bytes are read as. -/
def addressOf (address : List UInt8) : UInt32 :=
  .ofNat (Nat.ofDigits 256 (address.reverse.map UInt8.toNat))

/-- Consecutive bytes from an address on. -/
def storesAt (addr : UInt32) : List UInt8 → List (UInt32 × UInt8)
  | [] => []
  | b :: data => (addr, b) :: storesAt (addr + 1) data

theorem addressOf_concat (address : List UInt8) (b : UInt8) :
    addressOf (address ++ [b]) = addressOf address <<< 8 + b.toUInt32 := by
  rw [addressOf, List.reverse_concat, List.map_cons, Nat.ofDigits_cons, ← UInt32.toNat_inj]
  simp only [addressOf, UInt32.toNat_ofNat', UInt32.toNat_add, UInt32.toNat_shiftLeft,
    UInt8.toNat_toUInt32, Nat.shiftLeft_eq]
  simp
  omega

theorem foldl_readAddress (address : List UInt8) (g : SrecConfig) :
    let g' := address.foldl readAddress g
    g'.dstate = g.dstate ∧ g'.estate = g.estate ∧ g'.dlen = g.dlen ∧ g'.stores = g.stores ∧
      g'.sum = g.sum + address.sum := by
  induction address generalizing g with
  | nil => simp
  | cons b address ih =>
    obtain ⟨hdstate, hestate, hdlen, hstores, hsum⟩ := ih (readAddress g b)
    refine ⟨hdstate, hestate, hdlen, hstores, ?_⟩
    rw [List.sum_cons, ← add_assoc]
    exact hsum

theorem addr_foldl_readAddress (address : List UInt8) (h : g.addr = 0) :
    (address.foldl readAddress g).addr = addressOf address := by
  induction address using List.reverseRecOn with
  | nil => rw [List.foldl_nil, h]; rfl
  | append_singleton address b ih =>
    rw [List.foldl_concat, addressOf_concat, ← ih]
    rfl

theorem foldl_readRest (s : SrecState) (data : List UInt8) (g : SrecConfig) :
    let g' := data.foldl (readRest s) g
    g'.estate = g.estate ∧ g'.sum = g.sum + data.sum := by
  induction data generalizing g with
  | nil => simp
  | cons b data ih =>
    obtain ⟨hestate, hsum⟩ := ih (readRest s g b)
    have hread : (readRest s g b).estate = g.estate ∧ (readRest s g b).sum = g.sum + b := by
      unfold readRest
      split_ifs <;> exact ⟨rfl, rfl⟩
    rw [List.foldl_cons, List.sum_cons, ← add_assoc, ← hread.2]
    exact ⟨hestate.trans hread.1, hsum⟩

theorem stores_foldl_readData (data : List UInt8) (g : SrecConfig) :
    (data.foldl readData g).stores = g.stores ++ storesAt g.addr data := by
  induction data generalizing g with
  | nil => exact (List.append_nil _).symm
  | cons b data ih =>
    rw [List.foldl_cons, ih (readData g b), storesAt, List.append_cons]
    rfl

theorem foldl_readIgnored (data : List UInt8) (g : SrecConfig) :
    (data.foldl readIgnored g).stores = g.stores ∧ (data.foldl readIgnored g).addr = g.addr := by
  induction data generalizing g with
  | nil => exact ⟨rfl, rfl⟩
  | cons b data ih => exact ih (readIgnored g b)

/-! ## Records -/

/-- What a record is for. -/
inductive Kind
  | skip
  | data
  | final
deriving DecidableEq

/-- The digits after the letter, with the size of the address. -/
inductive IsType : UInt8 → Kind → ℕ → Prop
  | s0 : IsType 48 .skip 2
  | s1 : IsType 49 .data 2
  | s2 : IsType 50 .data 3
  | s3 : IsType 51 .data 4
  | s5 : IsType 53 .skip 2
  | s7 : IsType 55 .final 4
  | s8 : IsType 56 .final 3
  | s9 : IsType 57 .final 2

/-- The text of a valid record. -/
inductive IsRecord : List UInt8 → Kind → List UInt8 → List UInt8 → Prop
  | intro {letter type length sum : UInt8} {kind : Kind} {digits address data : List UInt8}
      (hletter : letter = 83 ∨ letter = 115) (htype : IsType type kind address.length)
      (hdigits : HexBytes digits (length :: (address ++ data ++ [sum])))
      (hlength : length.toNat = (address ++ data ++ [sum]).length)
      (hsum : ((length :: (address ++ data ++ [sum])).map UInt8.toNat).sum % 256 = 0xFF) :
      IsRecord (letter :: type :: digits) kind address data

/-- The text of a file, with what is stored and the entry. -/
inductive Loads : List UInt8 → List (UInt32 × UInt8) → UInt32 → Prop
  | blank {c : UInt8} {text : List UInt8} {stores : List (UInt32 × UInt8)} {entry : UInt32}
      (hc : IsBlank c) (h : Loads text stores entry) : Loads (c :: text) stores entry
  | skip {text rest address data : List UInt8} {stores : List (UInt32 × UInt8)} {entry : UInt32}
      (hrecord : IsRecord text .skip address data) (h : Loads rest stores entry) :
      Loads (text ++ rest) stores entry
  | data {text rest address data : List UInt8} {stores : List (UInt32 × UInt8)} {entry : UInt32}
      (hrecord : IsRecord text .data address data) (h : Loads rest stores entry) :
      Loads (text ++ rest) (storesAt (addressOf address) data ++ stores) entry
  | final {text rest address data : List UInt8}
      (hrecord : IsRecord text .final address data) (hrest : ∀ c ∈ rest, IsBlank c) :
      Loads (text ++ rest) [] (addressOf address)

/-- The state that reads the data of a record. -/
def Kind.dstate : Kind → SrecState
  | .skip | .final => .hexIhi
  | .data => .hexDhi

/-- The state after a record. -/
def Kind.estate : Kind → SrecState
  | .skip | .data => .hexShi
  | .final => .hexEnd

section

variable {kind : Kind} {n : ℕ} {stores : List (UInt32 × UInt8)} {entry : UInt32}
  {address data : List UInt8} {length sum : UInt8}

theorem Kind.dstate_eq (kind : Kind) : kind.dstate = .hexDhi ∨ kind.dstate = .hexIhi := by
  cases kind <;> simp [Kind.dstate]

/-- The decoder after a type. -/
def typed (g : SrecConfig) (kind : Kind) (n : ℕ) : SrecConfig :=
  { g with alen := .ofNat n, dstate := kind.dstate, estate := kind.estate, state := .hexLhi }

/-- The decoder after the length byte. -/
def measured (g : SrecConfig) (length : UInt8) : SrecConfig :=
  { g with addr := 0, sum := length, dlen := length - g.alen, state := .hexAhi }

/-- The decoder before the data. -/
def addressed (g : SrecConfig) (kind : Kind) (length : UInt8) (address : List UInt8) : SrecConfig :=
  address.foldl readAddress (measured (typed g kind address.length) length)

/-- The decoder before the checksum. -/
def filled (g : SrecConfig) (kind : Kind) (length : UInt8) (address data : List UInt8) :
    SrecConfig :=
  data.foldl (readRest kind.dstate) (addressed g kind length address)

/-- The decoder after a record. -/
def closed (g : SrecConfig) (kind : Kind) (length : UInt8) (address data : List UInt8)
    (sum : UInt8) : SrecConfig :=
  { filled g kind length address data with data := sum, sum := 0, dlen := 0, state := kind.estate }

theorem IsType.size_bounds (h : IsType c kind n) : 0 < n ∧ n < 256 := by
  cases h <;> simp

theorem srecType_eq_some (h : srecType c g = some g') :
    ∃ kind n, IsType c kind n ∧ { g' with state := .hexLhi } = typed g kind n := by
  simp only [srecType] at h
  split_ifs at h with h₀ h₁ h₂
  · obtain rfl | rfl := h₀ <;> cases h
    · exact ⟨.skip, 2, .s0, rfl⟩
    · exact ⟨.skip, 2, .s5, rfl⟩
  · obtain rfl | rfl | rfl := h₁ <;> cases h
    · exact ⟨.data, 2, .s1, rfl⟩
    · exact ⟨.data, 3, .s2, rfl⟩
    · exact ⟨.data, 4, .s3, rfl⟩
  · obtain rfl | rfl | rfl := h₂ <;> cases h
    · exact ⟨.final, 4, .s7, rfl⟩
    · exact ⟨.final, 3, .s8, rfl⟩
    · exact ⟨.final, 2, .s9, rfl⟩

theorem step_type (hs : g.state = .hexSlo) :
    step g c = .ok g' ↔ ∃ kind n, IsType c kind n ∧ g' = typed g kind n := by
  simp only [step, srecCase, hs]
  constructor
  · intro h
    cases htype : srecType c g with
    | none => simp [htype] at h
    | some g₁ =>
      simp only [htype, Except.ok.injEq] at h
      obtain ⟨kind, n, hkind, heq⟩ := srecType_eq_some htype
      exact ⟨kind, n, hkind, h ▸ heq⟩
  · rintro ⟨kind, n, hkind, rfl⟩
    cases hkind <;> rfl

theorem accepts_length (h : n < 256) : Accepts stores entry (typed g kind n) text ↔
    ∃ digits rest length, text = digits ++ rest ∧ HexBytes digits [length] ∧ n < length.toNat ∧
      Accepts stores entry (measured (typed g kind n) length) rest := by
  have halen : (typed g kind n).alen.toNat = n := UInt8.toNat_ofNat_of_lt' h
  have hbyte (b : UInt8) : byteStep (typed g kind n) b =
      if b ≤ (typed g kind n).alen then .error .short else .ok (measured (typed g kind n) b) := rfl
  rw [accepts_byte (.inl rfl)]
  constructor
  · rintro ⟨hi, lo, b, rest, g₁, rfl, hb, hread, hacc⟩
    rw [hbyte] at hread
    split_ifs at hread with hle
    cases hread
    rw [UInt8.le_iff_toNat_le, halen, not_le] at hle
    exact ⟨[hi, lo], rest, b, rfl, .cons hb .nil, hle, hacc⟩
  · rintro ⟨digits, rest, length, rfl, hdigits, hlt, hacc⟩
    cases hdigits with
    | @cons hi lo b digits bytes hb hdigits =>
      cases hdigits
      refine ⟨hi, lo, length, rest, _, rfl, hb, ?_, hacc⟩
      rw [hbyte, if_neg]
      rwa [UInt8.le_iff_toNat_le, halen, not_le]

theorem addressLeft_measured (h₀ : 0 < n) (h₁ : n < 256) :
    AddressLeft n (measured (typed g kind n) length) := by
  obtain ⟨k, rfl⟩ := Nat.exists_eq_succ_of_ne_zero h₀.ne'
  exact ⟨rfl, UInt8.toNat_ofNat_of_lt' h₁⟩

theorem bytesLeft_addressed (h₀ : 0 < address.length) (h₁ : address.length < 256) {m : ℕ}
    (hlength : length.toNat = address.length + m + 1) :
    BytesLeft kind.dstate m (addressed g kind length address) := by
  obtain ⟨hdstate, -, hdlen, -, -⟩ :=
    foldl_readAddress address (measured (typed g kind address.length) length)
  constructor
  · exact (left_foldl addressLeft_readAddress address (addressLeft_measured h₀ h₁)).trans hdstate
  · have halen : (UInt8.ofNat address.length).toNat = address.length := UInt8.toNat_ofNat_of_lt' h₁
    have hle : UInt8.ofNat address.length ≤ length := by
      rw [UInt8.le_iff_toNat_le, halen]
      omega
    rw [addressed, hdlen, measured, typed, UInt8.toNat_sub_of_le _ _ hle, halen]
    omega

theorem filled_sum : (filled g kind length address data).sum =
    length + address.sum + data.sum := by
  rw [filled, (foldl_readRest _ _ _).2, addressed, (foldl_readAddress _ _).2.2.2.2]
  rfl

theorem filled_estate : (filled g kind length address data).estate = kind.estate := by
  rw [filled, (foldl_readRest _ _ _).1, addressed, (foldl_readAddress _ _).2.1]
  rfl

theorem closed_eq : closed g kind length address data sum =
    { filled g kind length address data with
      data := sum, sum := 0, dlen := 0, state := (filled g kind length address data).estate } := by
  simp only [closed, filled_estate]

theorem sum_map_toNat (bytes : List UInt8) :
    (bytes.map UInt8.toNat).sum % 256 = bytes.sum.toNat := by
  induction bytes with
  | nil => rfl
  | cons b bytes ih =>
    rw [List.map_cons, List.sum_cons, List.sum_cons, UInt8.toNat_add, ← ih]
    exact (Nat.add_mod_mod ..).symm

/-- The checksum makes the sum of all the bytes all ones. -/
theorem sum_eq_allOnes :
    ((length :: (address ++ data ++ [sum])).map UInt8.toNat).sum % 256 = 0xFF ↔
      length + address.sum + data.sum + sum + 1 = 0 := by
  have hsum : (length :: (address ++ data ++ [sum])).sum =
      length + address.sum + data.sum + sum := by
    simp only [List.sum_cons, List.sum_append, List.sum_nil, add_zero, add_assoc]
  rw [sum_map_toNat, hsum, ← eq_neg_iff_add_eq_zero, ← UInt8.toNat_inj]
  rfl

/-- A record from its length byte on. -/
theorem accepts_body (h₀ : 0 < n) (h₁ : n < 256) : Accepts stores entry (typed g kind n) text ↔
    ∃ digits rest length address data sum, text = digits ++ rest ∧
      HexBytes digits (length :: (address ++ data ++ [sum])) ∧ address.length = n ∧
      length.toNat = (address ++ data ++ [sum]).length ∧
      length + address.sum + data.sum + sum + 1 = 0 ∧
      Accepts stores entry (closed g kind length address data sum) rest := by
  rw [accepts_length h₁]
  constructor
  · rintro ⟨d₀, _, length, rfl, hd₀, hlt, hacc⟩
    obtain ⟨d₁, _, address, rfl, hd₁, rfl, hacc⟩ :=
      (accepts_address (addressLeft_measured h₀ h₁)).1 hacc
    obtain ⟨m, hm⟩ := Nat.exists_eq_add_of_lt hlt
    have hleft : BytesLeft kind.dstate m (addressed g kind length address) :=
      bytesLeft_addressed h₀ h₁ hm
    obtain ⟨d₂, _, data, rfl, hd₂, rfl, hacc⟩ := (accepts_rest kind.dstate_eq hleft).1 hacc
    obtain ⟨d₃, rest, sum, rfl, hd₃, hsum, hacc⟩ :=
      (accepts_sum kind.dstate_eq (bytesLeft_foldl kind.dstate_eq hleft)).1 hacc
    refine ⟨d₀ ++ (d₁ ++ d₂ ++ d₃), rest, length, address, data, sum, ?_, ?_, rfl, ?_, ?_, ?_⟩
    · simp only [List.append_assoc]
    · exact hd₀.append ((hd₁.append hd₂).append hd₃)
    · rw [hm, List.length_append, List.length_append, List.length_singleton]
    · exact @filled_sum g kind address data length ▸ hsum
    · exact closed_eq ▸ hacc
  · rintro ⟨digits, rest, length, address, data, sum, rfl, hdigits, rfl, hlength, hsum, hacc⟩
    obtain ⟨d₀, d, rfl, hd₀, hd⟩ := @HexBytes.split _ [length] _ hdigits
    obtain ⟨d, d₃, rfl, hd, hd₃⟩ := hd.split
    obtain ⟨d₁, d₂, rfl, hd₁, hd₂⟩ := hd.split
    rw [List.length_append, List.length_append, List.length_singleton] at hlength
    have hleft : BytesLeft kind.dstate data.length (addressed g kind length address) :=
      bytesLeft_addressed h₀ h₁ hlength
    refine ⟨d₀, d₁ ++ (d₂ ++ (d₃ ++ rest)), length, ?_, hd₀, by omega, ?_⟩
    · simp only [List.append_assoc]
    refine (accepts_address (addressLeft_measured h₀ h₁)).2 ⟨d₁, _, address, rfl, hd₁, rfl, ?_⟩
    refine (accepts_rest kind.dstate_eq hleft).2 ⟨d₂, _, data, rfl, hd₂, rfl, ?_⟩
    refine (accepts_sum kind.dstate_eq (bytesLeft_foldl kind.dstate_eq hleft)).2
      ⟨d₃, rest, sum, rfl, hd₃, ?_, ?_⟩
    · exact (@filled_sum g kind address data length).symm ▸ hsum
    · exact closed_eq ▸ hacc

/-- What a record of a kind stores. -/
def Kind.stored : Kind → List UInt8 → List UInt8 → List (UInt32 × UInt8)
  | .skip, _, _ | .final, _, _ => []
  | .data, address, data => storesAt (addressOf address) data

theorem stores_addressed : (addressed g kind length address).stores = g.stores :=
  (foldl_readAddress _ _).2.2.2.1

theorem addr_addressed : (addressed g kind length address).addr = addressOf address :=
  addr_foldl_readAddress address rfl

theorem closed_stores : (closed g kind length address data sum).stores =
    g.stores ++ kind.stored address data := by
  change (filled g kind length address data).stores = _
  cases kind with
  | data =>
    refine (stores_foldl_readData data _).trans ?_
    rw [stores_addressed, addr_addressed, Kind.stored]
  | skip | final =>
    refine (foldl_readIgnored data _).1.trans ?_
    rw [stores_addressed, Kind.stored, List.append_nil]

theorem closed_addr (h : kind ≠ .data) :
    (closed g kind length address data sum).addr = addressOf address := by
  change (filled g kind length address data).addr = _
  cases kind with
  | data => exact absurd rfl h
  | skip | final => exact (foldl_readIgnored data _).2.trans addr_addressed

theorem accepts_end (hs : g.state = .hexEnd) : Accepts stores entry g text ↔
    (∀ c ∈ text, IsBlank c) ∧ g.stores = stores ∧ g.addr = entry := by
  induction text with
  | nil => simp [accepts_nil, hs]
  | cons c text ih =>
    rw [accepts_cons, List.forall_mem_cons, and_assoc, ← ih]
    simp only [step, hs, srecCase]
    by_cases hc : IsBlank c
    · simp only [hc, if_true, true_and, Except.ok.injEq]
      exact exists_eq_left'
    · simp only [hc, if_false, false_and, reduceCtorEq, exists_false]

/-- Between two records there is a blank, or a record begins. -/
theorem accepts_shi (hs : g.state = .hexShi) : Accepts stores entry g text ↔
    (∃ c rest, text = c :: rest ∧ IsBlank c ∧ Accepts stores entry g rest) ∨
      ∃ letter type digits rest kind length address data sum,
        text = letter :: type :: (digits ++ rest) ∧ (letter = 83 ∨ letter = 115) ∧
          IsType type kind address.length ∧
          HexBytes digits (length :: (address ++ data ++ [sum])) ∧
          length.toNat = (address ++ data ++ [sum]).length ∧
          length + address.sum + data.sum + sum + 1 = 0 ∧
          Accepts stores entry (closed g kind length address data sum) rest := by
  constructor
  · intro h
    obtain _ | ⟨c, text⟩ := text
    · rw [accepts_nil, hs] at h
      cases h.1
    obtain ⟨g₁, hstep, h⟩ := accepts_cons.1 h
    simp only [step, hs, srecCase] at hstep
    by_cases hc : IsBlank c
    · rw [if_pos hc] at hstep
      cases hstep
      exact .inl ⟨c, text, rfl, hc, h⟩
    by_cases hletter : c = 83 ∨ c = 115
    · rw [if_neg hc, if_neg (by simpa [or_iff_not_imp_left] using hletter)] at hstep
      cases hstep
      obtain _ | ⟨type, text⟩ := text
      · cases (accepts_nil.1 h).1
      obtain ⟨g₁, hslo, h⟩ := accepts_cons.1 h
      obtain ⟨kind, n, htype, rfl⟩ := (step_type rfl).1 hslo
      obtain ⟨digits, rest, length, address, data, sum, rfl, hdigits, rfl, hlength, hsum, h⟩ :=
        (accepts_body htype.size_bounds.1 htype.size_bounds.2).1 h
      exact .inr ⟨c, type, digits, rest, kind, length, address, data, sum, rfl, hletter, htype,
        hdigits, hlength, hsum, h⟩
    · rw [if_neg hc, if_pos (not_or.1 hletter)] at hstep
      cases hstep
  · rintro (⟨c, rest, rfl, hc, h⟩ | ⟨letter, type, digits, rest, kind, length, address, data, sum,
      rfl, hletter, htype, hdigits, hlength, hsum, h⟩)
    · refine accepts_cons.2 ⟨g, ?_, h⟩
      simp only [step, hs, srecCase, hc, if_true]
    · refine accepts_cons.2 ⟨{ g with state := .hexSlo }, ?_, ?_⟩
      · obtain rfl | rfl := hletter <;> simp [step, hs, srecCase, IsBlank]
      · refine accepts_cons.2 ⟨_, (step_type rfl).2 ⟨kind, address.length, htype, rfl⟩, ?_⟩
        exact (accepts_body htype.size_bounds.1 htype.size_bounds.2).2
          ⟨digits, rest, length, address, data, sum, rfl, hdigits, rfl, hlength, hsum, h⟩

theorem accepts_record {record rest : List UInt8} (hs : g.state = .hexShi)
    (hrecord : IsRecord record kind address data) :
    rest.length < (record ++ rest).length ∧ ∃ length sum,
      Accepts stores entry (closed g kind length address data sum) rest →
        Accepts stores entry g (record ++ rest) := by
  cases hrecord with
  | @intro letter type length sum _ digits _ _ hletter htype hdigits hlength hsum =>
    constructor
    · simp only [List.cons_append, List.length_cons, List.length_append]
      omega
    · refine ⟨length, sum, fun h => (accepts_shi hs).2 (.inr ?_)⟩
      exact ⟨letter, type, digits, rest, kind, length, address, data, sum, rfl, hletter, htype,
        hdigits, hlength, sum_eq_allOnes.1 hsum, h⟩

/-- Between two records the decoder accepts what is a file from there on. -/
theorem accepts_iff_loads (hs : g.state = .hexShi) : Accepts stores entry g text ↔
    ∃ stored, stores = g.stores ++ stored ∧ Loads text stored entry := by
  induction hn : text.length using Nat.strong_induction_on generalizing g text with
  | _ n ih =>
    subst hn
    constructor
    · intro hacc
      obtain ⟨c, rest, rfl, hc, h⟩ | ⟨letter, type, digits, rest, kind, length, address, data, sum,
        rfl, hletter, htype, hdigits, hlength, hsum, h⟩ := (accepts_shi hs).1 hacc
      · obtain ⟨stored, rfl, hloads⟩ := (ih _ (Nat.lt_succ_self _) hs rfl).1 h
        exact ⟨stored, rfl, .blank hc hloads⟩
      · have hrecord : IsRecord (letter :: type :: digits) kind address data :=
          .intro hletter htype hdigits hlength (sum_eq_allOnes.2 hsum)
        have hlt : rest.length < (letter :: type :: (digits ++ rest)).length := by
          simp only [List.length_cons, List.length_append]
          omega
        cases kind with
        | skip =>
          obtain ⟨stored, rfl, hloads⟩ := (ih _ hlt rfl rfl).1 h
          rw [closed_stores]
          exact ⟨stored, congrArg (· ++ stored) (List.append_nil _), .skip hrecord hloads⟩
        | data =>
          obtain ⟨stored, rfl, hloads⟩ := (ih _ hlt rfl rfl).1 h
          rw [closed_stores]
          exact ⟨_, List.append_assoc .., .data hrecord hloads⟩
        | final =>
          obtain ⟨hrest, rfl, rfl⟩ := (accepts_end rfl).1 h
          rw [closed_stores, closed_addr (by simp)]
          exact ⟨[], rfl, .final hrecord hrest⟩
    · rintro ⟨stored, rfl, h⟩
      cases h with
      | @blank c rest _ _ hc h =>
        refine (accepts_shi hs).2 (.inl ⟨c, rest, rfl, hc, ?_⟩)
        exact (ih _ (Nat.lt_succ_self _) hs rfl).2 ⟨stored, rfl, h⟩
      | skip hrecord h =>
        obtain ⟨hlt, length, sum, hacc⟩ := accepts_record hs hrecord
        refine hacc ((ih _ hlt rfl rfl).2 ⟨stored, ?_, h⟩)
        rw [closed_stores, Kind.stored, List.append_nil]
      | @data _ _ address data stored _ hrecord h =>
        obtain ⟨hlt, length, sum, hacc⟩ := accepts_record hs hrecord
        refine hacc ((ih _ hlt rfl rfl).2 ⟨stored, ?_, h⟩)
        rw [closed_stores, Kind.stored, List.append_assoc]
      | final hrecord hrest =>
        obtain ⟨-, length, sum, hacc⟩ := accepts_record hs hrecord
        refine hacc ((accepts_end rfl).2 ⟨hrest, ?_, closed_addr (by simp)⟩)
        rw [closed_stores, Kind.stored]

end

/-- The calls and the end all succeed exactly where the text is a file, in whatever pieces it
comes: then just the data of the file is stored, and the entry is that of its last record. -/
theorem srecLoad_iff (g : SrecConfig) (calls : List (List UInt8))
    (stores : List (UInt32 × UInt8)) (entry : UInt32) :
    (∃ g', srecLoad g calls = .ok g' ∧ srecEod g' = .ok () ∧ g'.stores = stores ∧
      g'.addr = entry) ↔
      ∃ stored, stores = g.stores ++ stored ∧ Loads calls.flatten stored entry := by
  rw [srecLoad_eq]
  exact @accepts_iff_loads (srecStart g) calls.flatten stores entry rfl

/-- A small letter begins a record, and a blank may come before the first one. -/
theorem small_letter_and_blank_accepted :
    let g : SrecConfig := ⟨.hexShi, .hexShi, .hexShi, 0, 0, 0, 0, 0, []⟩
    let record : List UInt8 := [57, 48, 51, 48, 48, 48, 48, 70, 67]
    (83 ∉ 115 :: record ∧ ∃ g', srecLoad g [115 :: record] = .ok g' ∧ srecEod g' = .ok ()) ∧
      ∃ g', srecLoad g [32 :: 83 :: record] = .ok g' ∧ srecEod g' = .ok () :=
  ⟨⟨by decide, _, rfl, rfl⟩, ⟨_, rfl, rfl⟩⟩

end Srecord
end Rtcs
end Mqx
