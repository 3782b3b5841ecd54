import Mathlib.Algebra.Order.Floor.Semifield
import Mathlib.Data.Nat.ModEq
import Mqx.Clock.Math128
import Mqx.Clock.TickConversion

/-!
# From ticks to units of time

Model of `psp_tims.c`, `psp_tins.c` and `psp_tips.c`. A time in hardware ticks is
multiplied by ten times the number of units in a second and divided by the hardware ticks in a
second, all in 128 bits; the carries out of the products are not looked at.
-/

namespace Mqx.Clock

/-- The body of the conversions, with the factors that make up ten times the unit. -/
def ticksTo (factors : List UInt32) (k : TickRates) (tick : TickStruct) (round : Bool) :
    UInt32 × Bool :=
  let tmp := [tick.ticks.toUInt32, (tick.ticks >>> 32).toUInt32, 0, 0]
  let tmp := (pspMul128By32 tmp k.hwTicksPerTick).1
  let tmp := (pspAddElementToArray tmp tick.hwTicks).1
  let tmp := factors.foldl (fun tmp factor => (pspMul128By32 tmp factor).1) tmp
  let tmp := (pspDiv128By32 tmp k.ticksPerSecond).1
  let tmp := (pspDiv128By32 tmp k.hwTicksPerTick).1
  let tmp := if round then (pspAddElementToArray tmp 5).1 else tmp
  let tmp := (pspDiv128By32 tmp 10).1
  (tmp.getD 0 0, decide (tmp.getD 1 0 ≠ 0 ∨ tmp.getD 2 0 ≠ 0 ∨ tmp.getD 3 0 ≠ 0))

/-- `_psp_ticks_to_milliseconds`: the number and the overflow. -/
def pspTicksToMilliseconds (k : TickRates) (tick : TickStruct) : UInt32 × Bool :=
  ticksTo [10000] k tick true

/-- `_psp_ticks_to_milliseconds_truncate`. -/
def pspTicksToMillisecondsTruncate (k : TickRates) (tick : TickStruct) : UInt32 × Bool :=
  ticksTo [10000] k tick false

/-- `_psp_ticks_to_nanoseconds`. -/
def pspTicksToNanoseconds (k : TickRates) (tick : TickStruct) : UInt32 × Bool :=
  ticksTo [1000000000, 10] k tick true

/-- `_psp_ticks_to_nanoseconds_truncate`. -/
def pspTicksToNanosecondsTruncate (k : TickRates) (tick : TickStruct) : UInt32 × Bool :=
  ticksTo [1000000000, 10] k tick false

/-- `_psp_ticks_to_picoseconds`. -/
def pspTicksToPicoseconds (k : TickRates) (tick : TickStruct) : UInt32 × Bool :=
  ticksTo [1000000000, 10000] k tick true

/-- `_psp_ticks_to_picoseconds_truncate`. -/
def pspTicksToPicosecondsTruncate (k : TickRates) (tick : TickStruct) : UInt32 × Bool :=
  ticksTo [1000000000, 10000] k tick false

/-! ## The number computed -/

variable {k : TickRates} {tick : TickStruct} {factors : List UInt32} {p unit : ℕ} {round : Bool}
  {l : List UInt32}

/-- The hardware ticks in a second. -/
def TickRates.hwTicksPerSecond (k : TickRates) : ℕ :=
  k.ticksPerSecond.toNat * k.hwTicksPerTick.toNat

/-- What the divisions make of a product. -/
def unitQuotient (k : TickRates) (round : Bool) (p : ℕ) : ℕ :=
  (p / k.hwTicksPerSecond + if round then 5 else 0) / 10

theorem ticks_words (t : UInt64) :
    wordsValue [t.toUInt32, (t >>> 32).toUInt32, 0, 0] = t.toNat := by
  have ht := t.toNat_lt
  have h0 : (0 : UInt32).toNat = 0 := rfl
  have hhigh : (t >>> 32).toUInt32.toNat = t.toNat / 2 ^ 32 := by
    have h32 : (32 : UInt64).toNat % 64 = 32 := rfl
    rw [UInt64.toNat_toUInt32, UInt64.toNat_shiftRight, h32, Nat.shiftRight_eq_div_pow]
    omega
  rw [wordsValue_cons, wordsValue_cons, wordsValue_cons, wordsValue_singleton, hhigh, h0,
    UInt64.toNat_toUInt32]
  omega

/-- The product of a list of factors. -/
def product (factors : List UInt32) : ℕ := (factors.map UInt32.toNat).prod

theorem mulFactors_value (hl : l.length = 4) :
    wordsValue (factors.foldl (fun tmp factor => (pspMul128By32 tmp factor).1) l) % 2 ^ 128 =
        wordsValue l * product factors % 2 ^ 128 ∧
      (factors.foldl (fun tmp factor => (pspMul128By32 tmp factor).1) l).length = 4 := by
  induction factors generalizing l with
  | nil => exact ⟨by simp [product], hl⟩
  | cons f factors ih =>
    have hmod := pspMul128By32_mod l f
    obtain ⟨-, hlen⟩ := pspMul128By32_value l f
    rw [hl] at hmod hlen
    obtain ⟨hvalue, hlength⟩ := ih hlen
    rw [List.foldl_cons]
    refine ⟨?_, hlength⟩
    have hprod : product (f :: factors) = f.toNat * product factors := by simp [product]
    rw [hvalue, hmod, hprod, Nat.mod_mul_mod]
    congr 1
    ring

/-- The four words of a quotient as the result and the overflow. -/
theorem words_result (hl : l.length = 4) :
    (l.getD 0 0).toNat = wordsValue l % 2 ^ 32 ∧
      (decide (l.getD 1 0 ≠ 0 ∨ l.getD 2 0 ≠ 0 ∨ l.getD 3 0 ≠ 0) = true ↔
        2 ^ 32 ≤ wordsValue l) := by
  obtain ⟨a, rest, rfl⟩ : ∃ a rest, l = a :: rest := by
    cases l with
    | nil => simp at hl
    | cons a rest => exact ⟨a, rest, rfl⟩
  have ha := a.toNat_lt
  have hrest : wordsValue rest = 0 ↔ ∀ w ∈ rest, w = 0 := wordsValue_eq_zero
  rw [wordsValue_cons]
  refine ⟨?_, ?_⟩
  · rw [List.getD_cons_zero]
    omega
  · obtain ⟨b, c, d, rfl⟩ : ∃ b c d, rest = [b, c, d] := by
      rw [List.length_cons] at hl
      exact List.length_eq_three.mp (by omega)
    have hsome : (b ≠ 0 ∨ c ≠ 0 ∨ d ≠ 0) ↔ wordsValue [b, c, d] ≠ 0 := by
      rw [ne_eq (wordsValue [b, c, d]), hrest]
      simp only [List.forall_mem_cons]
      by_cases hb : b = 0 <;> by_cases hc : c = 0 <;> by_cases hd : d = 0 <;> simp [hb, hc, hd]
    simp only [List.getD_cons_succ, List.getD_cons_zero, decide_eq_true_eq, hsome]
    omega

/-- The rounding does not carry out of the 128 bits. -/
theorem rounding_fits (hnormal : tick.hwTicks < k.hwTicksPerTick) (hsmall : unit < 2 ^ 44) :
    tick.total k * unit % 2 ^ 128 / k.hwTicksPerSecond + 5 < 2 ^ 128 := by
  have hlt : tick.total k * unit % 2 ^ 128 < 2 ^ 128 := Nat.mod_lt _ (Nat.two_pow_pos 128)
  have hpos : 0 < k.hwTicksPerSecond := Nat.mul_pos
    (by simpa [UInt32.lt_iff_toNat_lt] using k.ticksPerSecond_pos) k.hwTicks_pos
  rcases Nat.lt_or_ge k.hwTicksPerSecond 2 with hone | htwo
  · -- one hardware tick in a second: the time is the number of ticks
    have hsec : k.hwTicksPerSecond = 1 := by omega
    have hhw : k.hwTicksPerTick.toNat = 1 := Nat.eq_one_of_mul_eq_one_left hsec
    rw [UInt32.lt_iff_toNat_lt, hhw] at hnormal
    have htotal : tick.total k < 2 ^ 64 := by
      have := tick.ticks.toNat_lt
      rw [TickStruct.total, hhw]
      omega
    have hprod : tick.total k * unit < 2 ^ 64 * 2 ^ 44 := Nat.mul_lt_mul'' htotal hsmall
    rw [hsec, Nat.div_one, Nat.mod_eq_of_lt (by omega)]
    omega
  · have hhalf : tick.total k * unit % 2 ^ 128 / k.hwTicksPerSecond ≤
        tick.total k * unit % 2 ^ 128 / 2 := Nat.div_le_div_left htwo (by omega)
    omega

/-- A sum that fits in four words. -/
theorem pspAddElementToArray_fits {val : UInt32} (hl : l.length = 4)
    (hfits : wordsValue l + val.toNat < 2 ^ 128) :
    wordsValue (pspAddElementToArray l val).1 = wordsValue l + val.toNat ∧
      (pspAddElementToArray l val).1.length = 4 := by
  have hne : l ≠ [] := by
    rintro rfl
    simp at hl
  obtain ⟨hvalue, hlength⟩ := pspAddElementToArray_value hne val
  rw [hl] at hvalue hlength
  refine ⟨?_, hlength⟩
  rcases Nat.eq_zero_or_pos (pspAddElementToArray l val).2.toNat with h | h <;> omega

/-- The time in hardware ticks, in four words. -/
theorem hardwareTicks_words (k : TickRates) (tick : TickStruct) :
    let words := [tick.ticks.toUInt32, (tick.ticks >>> 32).toUInt32, 0, 0]
    let total := (pspAddElementToArray (pspMul128By32 words k.hwTicksPerTick).1 tick.hwTicks).1
    wordsValue total = tick.total k ∧ total.length = 4 := by
  intro words total
  have hvalue := pspMul128By32_mod words k.hwTicksPerTick
  have hlength := (pspMul128By32_value words k.hwTicksPerTick).2
  have hprod : k.hwTicksPerTick.toNat * tick.ticks.toNat < 2 ^ 32 * 2 ^ 64 :=
    Nat.mul_lt_mul'' k.hwTicksPerTick.toNat_lt tick.ticks.toNat_lt
  have hhw := tick.hwTicks.toNat_lt
  have hwords : words.length = 4 := rfl
  rw [hwords, ticks_words, Nat.mod_eq_of_lt (by omega)] at hvalue
  obtain ⟨hsum, hlen⟩ := pspAddElementToArray_fits hlength
    (show _ + tick.hwTicks.toNat < 2 ^ 128 by omega)
  refine ⟨?_, hlen⟩
  rw [hsum, hvalue, TickStruct.total, Nat.mul_comm]

/-- The divisions and the rounding in four words. -/
theorem divisions_words (hl : l.length = 4) (round : Bool)
    (hfits : wordsValue l / k.hwTicksPerSecond + 5 < 2 ^ 128) :
    let tmp := (pspDiv128By32 (pspDiv128By32 l k.ticksPerSecond).1 k.hwTicksPerTick).1
    let tmp := if round then (pspAddElementToArray tmp 5).1 else tmp
    wordsValue (pspDiv128By32 tmp 10).1 = unitQuotient k round (wordsValue l) ∧
      (pspDiv128By32 tmp 10).1.length = 4 := by
  intro quotient tmp
  obtain ⟨hdiv, hdivLen⟩ :=
    pspDiv128By32_value (n := l) (by omega) k.ticksPerSecond_pos
  obtain ⟨hquotient, hquotientLen⟩ :=
    pspDiv128By32_value (n := (pspDiv128By32 l k.ticksPerSecond).1) (by omega)
      k.hwTicksPerTick_pos
  rw [hdiv, Nat.div_div_eq_div_mul, ← TickRates.hwTicksPerSecond] at hquotient
  rw [hdivLen, hl] at hquotientLen
  have hsum : wordsValue tmp = wordsValue l / k.hwTicksPerSecond + (if round then 5 else 0) ∧
      tmp.length = 4 := by
    cases round with
    | false => exact ⟨hquotient, hquotientLen⟩
    | true =>
      have h5 : (5 : UInt32).toNat = 5 := rfl
      obtain ⟨hvalue, hlength⟩ := @pspAddElementToArray_fits quotient 5 hquotientLen
        (by rw [hquotient, h5]; exact hfits)
      rw [hquotient] at hvalue
      exact ⟨hvalue, hlength⟩
  obtain ⟨hten, htenLen⟩ := pspDiv128By32_value (n := tmp) (by omega) (show (0 : UInt32) < 10 by decide)
  have h10 : (10 : UInt32).toNat = 10 := rfl
  rw [hsum.1, h10] at hten
  exact ⟨hten, by omega⟩

/-- The conversions compute the quotient of the product as far as it is kept. -/
theorem ticksTo_value (hnormal : tick.hwTicks < k.hwTicksPerTick)
    (hsmall : product factors < 2 ^ 44) (round : Bool) :
    (ticksTo factors k tick round).1.toNat =
        unitQuotient k round (tick.total k * product factors % 2 ^ 128) % 2 ^ 32 ∧
      ((ticksTo factors k tick round).2 = true ↔
        2 ^ 32 ≤ unitQuotient k round (tick.total k * product factors % 2 ^ 128)) := by
  obtain ⟨htotal, htotalLen⟩ := hardwareTicks_words k tick
  obtain ⟨hprod, hprodLen⟩ := @mulFactors_value factors _ htotalLen
  have hfits := @rounding_fits k tick (product factors) hnormal hsmall
  have hlt := wordsValue_lt (factors.foldl (fun tmp factor => (pspMul128By32 tmp factor).1)
    (pspAddElementToArray (pspMul128By32 [tick.ticks.toUInt32, (tick.ticks >>> 32).toUInt32, 0, 0]
      k.hwTicksPerTick).1 tick.hwTicks).1)
  rw [hprodLen] at hlt
  rw [htotal, Nat.mod_eq_of_lt hlt] at hprod
  rw [← hprod] at hfits ⊢
  obtain ⟨hquotient, hlength⟩ := divisions_words hprodLen round hfits
  rw [← hquotient]
  exact words_result hlength

/-! ## The exact time -/

/-- The time in units of which a second has `unit`. -/
def elapsed (k : TickRates) (tick : TickStruct) (unit : ℕ) : ℚ :=
  tick.total k * unit / k.hwTicksPerSecond

/-- The number is the exact one modulo `2 ^ 32`, and the overflow says that it does not fit. -/
def Exact (result : UInt32 × Bool) (exact : ℕ) : Prop :=
  result.1.toNat = exact % 2 ^ 32 ∧ (result.2 = true ↔ 2 ^ 32 ≤ exact)

theorem TickRates.hwTicksPerSecond_pos : 0 < k.hwTicksPerSecond :=
  Nat.mul_pos (by simpa [UInt32.lt_iff_toNat_lt] using k.ticksPerSecond_pos) k.hwTicks_pos

theorem floor_elapsed (k : TickRates) (tick : TickStruct) (unit : ℕ) :
    ⌊elapsed k tick unit⌋₊ = unitQuotient k false (tick.total k * (10 * unit)) := by
  have hsplit : tick.total k * (10 * unit) = 10 * (tick.total k * unit) := by ring
  rw [elapsed, ← Nat.cast_mul, Nat.floor_div_eq_div, unitQuotient, hsplit]
  simp only [Bool.false_eq_true, if_false, Nat.add_zero]
  rw [Nat.div_div_eq_div_mul, Nat.mul_comm _ 10, Nat.mul_div_mul_left _ _ (by omega)]

/-- Half a unit more, rounded down. -/
theorem floor_elapsed_half (k : TickRates) (tick : TickStruct) (unit : ℕ) :
    ⌊elapsed k tick unit + 1 / 2⌋₊ = unitQuotient k true (tick.total k * (10 * unit)) := by
  have hpos : 0 < k.hwTicksPerSecond := k.hwTicksPerSecond_pos
  have hne : (k.hwTicksPerSecond : ℚ) ≠ 0 := by exact_mod_cast hpos.ne'
  have hsum : elapsed k tick unit + 1 / 2 =
      ((tick.total k * (10 * unit) + 5 * k.hwTicksPerSecond : ℕ) : ℚ) /
        (k.hwTicksPerSecond * 10 : ℕ) := by
    rw [elapsed]
    push_cast
    field_simp
    ring
  rw [hsum, Nat.floor_div_eq_div, unitQuotient, ← Nat.div_div_eq_div_mul,
    Nat.add_mul_div_right _ _ hpos]
  rfl

/-- The product fits in 128 bits, or what is lost of it changes the rounded quotient by a
multiple of `2 ^ 32` and leaves it at least that large. -/
def Unharmed (k : TickRates) (round : Bool) (p : ℕ) : Prop :=
  p < 2 ^ 128 ∨ 2 ^ 32 ≤ unitQuotient k round (p % 2 ^ 128) ∧
    unitQuotient k round (p % 2 ^ 128) ≡ unitQuotient k round p [MOD 2 ^ 32]

/-- A product that does not fit stands for a time that does not fit either. -/
theorem le_unitQuotient (hp : 2 ^ 128 ≤ p) (round : Bool) : 2 ^ 32 ≤ unitQuotient k round p := by
  have hsecond : k.hwTicksPerSecond < 2 ^ 32 * 2 ^ 32 :=
    Nat.mul_lt_mul'' k.ticksPerSecond.toNat_lt k.hwTicksPerTick.toNat_lt
  have hquotient : 2 ^ 64 ≤ p / k.hwTicksPerSecond := by
    rw [Nat.le_div_iff_mul_le k.hwTicksPerSecond_pos]
    have := Nat.mul_le_mul_left (2 ^ 64) hsecond.le
    omega
  rw [unitQuotient]
  omega

theorem ticksTo_exact_iff (hnormal : tick.hwTicks < k.hwTicksPerTick)
    (hsmall : product factors < 2 ^ 44) (round : Bool) :
    Exact (ticksTo factors k tick round)
        (unitQuotient k round (tick.total k * product factors)) ↔
      Unharmed k round (tick.total k * product factors) := by
  obtain ⟨hresult, hflag⟩ := ticksTo_value hnormal hsmall round
  rw [Exact, Unharmed, hresult, hflag]
  rcases Nat.lt_or_ge (tick.total k * product factors) (2 ^ 128) with hlt | hge
  · rw [Nat.mod_eq_of_lt hlt]
    exact ⟨fun _ => Or.inl hlt, fun _ => ⟨rfl, Iff.rfl⟩⟩
  · have hlarge := @le_unitQuotient k _ hge round
    have hnot : ¬ tick.total k * product factors < 2 ^ 128 := by omega
    simp only [hlarge, hnot, false_or, iff_true, Nat.ModEq]
    exact And.comm

/-- Milliseconds need no more than 110 bits. -/
theorem unharmed_milliseconds (k : TickRates) (tick : TickStruct) (round : Bool) :
    Unharmed k round (tick.total k * 10000) := by
  have hticks : tick.ticks.toNat * k.hwTicksPerTick.toNat < 2 ^ 64 * 2 ^ 32 :=
    Nat.mul_lt_mul'' tick.ticks.toNat_lt k.hwTicksPerTick.toNat_lt
  have hhw := tick.hwTicks.toNat_lt
  refine Or.inl ?_
  rw [TickStruct.total]
  omega

/-- Milliseconds are exact with a sound overflow, and so are nanoseconds and picoseconds as long
as the intermediate product is unharmed. -/
theorem ticks_to_units (k : TickRates) (tick : TickStruct)
    (hnormal : tick.hwTicks < k.hwTicksPerTick) :
    (Exact (pspTicksToMilliseconds k tick) ⌊elapsed k tick (10 ^ 3) + 1 / 2⌋₊ ∧
        Exact (pspTicksToMillisecondsTruncate k tick) ⌊elapsed k tick (10 ^ 3)⌋₊) ∧
      ((Exact (pspTicksToNanoseconds k tick) ⌊elapsed k tick (10 ^ 9) + 1 / 2⌋₊ ↔
          Unharmed k true (tick.total k * 10 ^ 10)) ∧
        (Exact (pspTicksToNanosecondsTruncate k tick) ⌊elapsed k tick (10 ^ 9)⌋₊ ↔
          Unharmed k false (tick.total k * 10 ^ 10))) ∧
      (Exact (pspTicksToPicoseconds k tick) ⌊elapsed k tick (10 ^ 12) + 1 / 2⌋₊ ↔
          Unharmed k true (tick.total k * 10 ^ 13)) ∧
        (Exact (pspTicksToPicosecondsTruncate k tick) ⌊elapsed k tick (10 ^ 12)⌋₊ ↔
          Unharmed k false (tick.total k * 10 ^ 13)) := by
  have hms : product [10000] = 10 * 10 ^ 3 := rfl
  have hns : product [1000000000, 10] = 10 * 10 ^ 9 := rfl
  have hps : product [1000000000, 10000] = 10 * 10 ^ 12 := rfl
  have milliseconds := fun round => @ticksTo_exact_iff k tick [10000] hnormal (by decide) round
  have nanoseconds := fun round =>
    @ticksTo_exact_iff k tick [1000000000, 10] hnormal (by decide) round
  have picoseconds := fun round =>
    @ticksTo_exact_iff k tick [1000000000, 10000] hnormal (by decide) round
  simp only [hms] at milliseconds
  simp only [hns] at nanoseconds
  simp only [hps] at picoseconds
  simp only [floor_elapsed, floor_elapsed_half]
  exact ⟨⟨(milliseconds true).mpr (unharmed_milliseconds k tick true),
      (milliseconds false).mpr (unharmed_milliseconds k tick false)⟩,
    ⟨nanoseconds true, nanoseconds false⟩, picoseconds true, picoseconds false⟩

/-- Five ticks and half of one at 200 ticks a second. -/
theorem ticks_to_units_five :
    Exact (pspTicksToMilliseconds rates200 ⟨5, 240000⟩)
      ⌊elapsed rates200 ⟨5, 240000⟩ (10 ^ 3) + 1 / 2⌋₊ :=
  (ticks_to_units rates200 ⟨5, 240000⟩ (by decide)).1.1

theorem slowRates_pos : (0 : UInt32) < 1 ∧ (0 : UInt32) < 2147483648 := by decide

/-- One tick a second of `2 ^ 31` hardware ticks. -/
def slowRates : TickRates := ⟨1, 2147483648, slowRates_pos.1, slowRates_pos.2⟩

/-- At one tick a second of `2 ^ 31` hardware ticks, a product of picoseconds of more than 128
bits comes out as a small number without overflow. -/
theorem ticks_to_picoseconds_lost :
    ¬ ∀ (k : TickRates) (tick : TickStruct), tick.hwTicks < k.hwTicksPerTick →
      Exact (pspTicksToMilliseconds k tick) ⌊elapsed k tick (10 ^ 3) + 1 / 2⌋₊ ∧
        Exact (pspTicksToMillisecondsTruncate k tick) ⌊elapsed k tick (10 ^ 3)⌋₊ ∧
        Exact (pspTicksToNanoseconds k tick) ⌊elapsed k tick (10 ^ 9) + 1 / 2⌋₊ ∧
        Exact (pspTicksToNanosecondsTruncate k tick) ⌊elapsed k tick (10 ^ 9)⌋₊ ∧
        Exact (pspTicksToPicoseconds k tick) ⌊elapsed k tick (10 ^ 12) + 1 / 2⌋₊ ∧
        Exact (pspTicksToPicosecondsTruncate k tick) ⌊elapsed k tick (10 ^ 12)⌋₊ := by
  intro h
  obtain ⟨-, -, -, -, hps, -⟩ := h slowRates ⟨15845632502852867, 1113918645⟩ (by decide)
  rw [floor_elapsed_half] at hps
  have hflag : (pspTicksToPicoseconds slowRates ⟨15845632502852867, 1113918645⟩).2 = false := by
    decide
  have hlarge := hps.2.mpr (by decide)
  rw [hflag] at hlarge
  cases hlarge

end Mqx.Clock
