import Mathlib.Data.Nat.Bitwise
import Mqx.Clock.TickConversion

/-!
# Sums and differences of ticks

Model of `psp_tiad.c` and `psp_tisu.c` with the structures in memory, where the result may be
stored over an operand. The half of `TICKS` that is read through a pointer is the high one on a
host of either byte order; `o_ptr` is not null.
-/

namespace Mqx.Clock

open Function (update)

/-- The structures by address. -/
abbrev TickMemory := ℕ → TickStruct

/-- A store to `TICKS`. -/
def TickMemory.setTicks (m : TickMemory) (p : ℕ) (v : UInt64) : TickMemory :=
  update m p ⟨v, (m p).hwTicks⟩

/-- A store to `HW_TICKS`. -/
def TickMemory.setHwTicks (m : TickMemory) (p : ℕ) (v : UInt32) : TickMemory :=
  update m p ⟨(m p).ticks, v⟩

/-- `_psp_add_ticks` with its pointers. -/
def pspAddTicksAt (k : TickRates) (m : TickMemory) (a_ptr b_ptr r_ptr : ℕ) : TickMemory :=
  let m := m.setTicks r_ptr ((m a_ptr).ticks + (m b_ptr).ticks)
  let a_hw_ticks := (m a_ptr).hwTicks
  let b_hw_ticks := (m b_ptr).hwTicks
  let hwtpt := k.hwTicksPerTick
  if a_hw_ticks ≥ hwtpt - b_hw_ticks then
    let m := m.setTicks r_ptr ((m r_ptr).ticks + 1)
    m.setHwTicks r_ptr (a_hw_ticks + (b_hw_ticks - hwtpt))
  else m.setHwTicks r_ptr (a_hw_ticks + b_hw_ticks)

/-- `_psp_subtract_ticks` with its pointers. -/
def pspSubtractTicksAt (k : TickRates) (m : TickMemory) (a_ptr b_ptr r_ptr : ℕ) : TickMemory :=
  let m := m.setTicks r_ptr ((m a_ptr).ticks - (m b_ptr).ticks)
  let a_hw_ticks := (m a_ptr).hwTicks
  let b_hw_ticks := (m b_ptr).hwTicks
  if a_hw_ticks < b_hw_ticks then
    let a_hw_ticks := a_hw_ticks + k.hwTicksPerTick
    let m := m.setTicks r_ptr ((m r_ptr).ticks - 1)
    m.setHwTicks r_ptr (a_hw_ticks - b_hw_ticks)
  else m.setHwTicks r_ptr (a_hw_ticks - b_hw_ticks)

/-- `_psp_subtract_ticks` of two values. -/
def pspSubtractTicks (k : TickRates) (a b : TickStruct) : TickStruct :=
  if a.hwTicks < b.hwTicks then
    ⟨a.ticks - b.ticks - 1, a.hwTicks + k.hwTicksPerTick - b.hwTicks⟩
  else ⟨a.ticks - b.ticks, a.hwTicks - b.hwTicks⟩

def MAX_INT_32 : UInt32 := 0x7FFFFFFF
def MAX_UINT_32 : UInt32 := 0xFFFFFFFF

/-- `_psp_subtract_ticks_int32`: the result and `*o_ptr`. -/
def pspSubtractTicksInt32 (a b : TickStruct) : Int32 × Bool :=
  let r := a.ticks - b.ticks
  let r := if a.hwTicks < b.hwTicks then r - 1 else r
  -- exchange sign bits between the halves
  let b_hw_ticks := (r >>> 32).toUInt32
  let a_hw_ticks := (b_hw_ticks &&& (MAX_UINT_32 ^^^ MAX_INT_32)) ||| (r.toUInt32 &&& MAX_INT_32)
  let b_hw_ticks := (r.toUInt32 &&& (MAX_UINT_32 ^^^ MAX_INT_32)) ||| (b_hw_ticks &&& MAX_INT_32)
  if (a_hw_ticks >>> 31) * MAX_UINT_32 ≠ b_hw_ticks then
    ((MAX_INT_32 + (a_hw_ticks >>> 31)).toInt32, true)
  else (a_hw_ticks.toInt32, false)

/-! ## Results over operands -/

variable {k : TickRates} {m : TickMemory} {p a_ptr b_ptr r_ptr : ℕ} {a b : TickStruct}

@[simp] theorem TickMemory.setTicks_self (v : UInt64) :
    (m.setTicks p v) p = ⟨v, (m p).hwTicks⟩ :=
  Function.update_self ..

@[simp] theorem TickMemory.setTicks_hwTicks (v : UInt64) (q : ℕ) :
    ((m.setTicks p v) q).hwTicks = (m q).hwTicks := by
  by_cases hq : q = p
  · rw [hq, setTicks_self]
  · rw [setTicks, Function.update_of_ne hq]

@[simp] theorem TickMemory.setTicks_setTicks (v w : UInt64) :
    (m.setTicks p v).setTicks p w = m.setTicks p w := by
  rw [setTicks, setTicks_self, setTicks, Function.update_idem, setTicks]

theorem TickMemory.setTicks_setHwTicks (v : UInt64) (w : UInt32) :
    (m.setTicks p v).setHwTicks p w = update m p ⟨v, w⟩ := by
  rw [setHwTicks, setTicks_self, setTicks, Function.update_idem]

/-- The sum is stored, whatever it is stored over. -/
theorem pspAddTicksAt_eq :
    pspAddTicksAt k m a_ptr b_ptr r_ptr =
      update m r_ptr (pspAddTicks k (m a_ptr) (m b_ptr)) := by
  simp only [pspAddTicksAt, pspAddTicks, TickMemory.setTicks_hwTicks,
    TickMemory.setTicks_self, TickMemory.setTicks_setTicks, TickMemory.setTicks_setHwTicks]
  split_ifs <;> rfl

theorem pspSubtractTicksAt_eq :
    pspSubtractTicksAt k m a_ptr b_ptr r_ptr =
      update m r_ptr (pspSubtractTicks k (m a_ptr) (m b_ptr)) := by
  simp only [pspSubtractTicksAt, pspSubtractTicks, TickMemory.setTicks_hwTicks,
    TickMemory.setTicks_self, TickMemory.setTicks_setTicks, TickMemory.setTicks_setHwTicks]
  split_ifs <;> rfl

/-! ## The wrapping ticks -/

/-- The total of a normalised time determines it. -/
theorem TickStruct.eq_of_total (ha : a.hwTicks < k.hwTicksPerTick)
    (hb : b.hwTicks < k.hwTicksPerTick) (h : a.total k = b.total k) : a = b := by
  rw [UInt32.lt_iff_toNat_lt] at ha hb
  have hpos : 0 < k.hwTicksPerTick.toNat := k.hwTicks_pos
  have hdiv : ∀ t : TickStruct, t.hwTicks.toNat < k.hwTicksPerTick.toNat →
      t.total k / k.hwTicksPerTick.toNat = t.ticks.toNat := by
    intro t ht
    rw [total, Nat.mul_comm, Nat.mul_add_div hpos, Nat.div_eq_of_lt ht, Nat.add_zero]
  have hticks : a.ticks.toNat = b.ticks.toNat := by rw [← hdiv a ha, ← hdiv b hb, h]
  have hhw : a.hwTicks.toNat = b.hwTicks.toNat := by
    rw [total, total, hticks] at h
    exact Nat.add_left_cancel h
  obtain ⟨at', ah⟩ := a
  obtain ⟨bt, bh⟩ := b
  rw [TickStruct.mk.injEq]
  exact ⟨UInt64.toNat_inj.1 hticks, UInt32.toNat_inj.1 hhw⟩

theorem TickStruct.total_lt (ha : a.hwTicks < k.hwTicksPerTick) :
    a.total k < 2 ^ 64 * k.hwTicksPerTick.toNat := by
  rw [UInt32.lt_iff_toNat_lt] at ha
  calc a.total k < a.ticks.toNat * k.hwTicksPerTick.toNat + k.hwTicksPerTick.toNat :=
        Nat.add_lt_add_left ha _
    _ = (a.ticks.toNat + 1) * k.hwTicksPerTick.toNat := (Nat.succ_mul ..).symm
    _ ≤ 2 ^ 64 * k.hwTicksPerTick.toNat := Nat.mul_le_mul_right _ a.ticks.toNat_lt

theorem pspAddTicks_total (ha : a.hwTicks < k.hwTicksPerTick) (hb : b.hwTicks < k.hwTicksPerTick) :
    (pspAddTicks k a b).total k =
      (a.total k + b.total k) % (2 ^ 64 * k.hwTicksPerTick.toNat) := by
  obtain ⟨hnormal, n, hn⟩ := pspAddTicks_spec ha (UInt32.le_of_lt hb)
  rw [← hn, Nat.mul_assoc, Nat.add_mul_mod_self_right]
  exact (Nat.mod_eq_of_lt (TickStruct.total_lt hnormal)).symm

/-- The ticks of a difference, one less with a borrow. -/
theorem ticks_borrow (x y : UInt64) (c : ℕ) (hc : c ≤ 1) :
    ∃ n, (x - y - UInt64.ofNat c).toNat + y.toNat + c = x.toNat + n * 2 ^ 64 := by
  have hx := x.toNat_lt
  have hy := y.toNat_lt
  have hone : (UInt64.ofNat c).toNat = c := UInt64.toNat_ofNat_of_lt' (by
    rw [UInt64.size]
    omega)
  rw [UInt64.toNat_sub, UInt64.toNat_sub, hone]
  by_cases hle : y.toNat + c ≤ x.toNat
  · exact ⟨0, by omega⟩
  · exact ⟨1, by omega⟩

/-- The difference is normalised, and with the second operand makes the first one; whole ticks
wrap around. -/
theorem pspSubtractTicks_spec (ha : a.hwTicks < k.hwTicksPerTick)
    (hb : b.hwTicks < k.hwTicksPerTick) :
    (pspSubtractTicks k a b).hwTicks < k.hwTicksPerTick ∧
      ∃ n, (pspSubtractTicks k a b).total k + b.total k =
        a.total k + n * (2 ^ 64 * k.hwTicksPerTick.toNat) := by
  rw [UInt32.lt_iff_toNat_lt] at ha hb ⊢
  have hhw := k.hwTicksPerTick.toNat_lt
  have htotal : ∀ (c : ℕ) (r : TickStruct), c ≤ 1 → r.ticks = a.ticks - b.ticks - UInt64.ofNat c →
      r.hwTicks.toNat + b.hwTicks.toNat = a.hwTicks.toNat + c * k.hwTicksPerTick.toNat →
      ∃ n, r.total k + b.total k = a.total k + n * (2 ^ 64 * k.hwTicksPerTick.toNat) := by
    intro c r hc hticks hhw'
    obtain ⟨n, hn⟩ := ticks_borrow a.ticks b.ticks c hc
    rw [← hticks] at hn
    refine ⟨n, ?_⟩
    have hmul := congrArg (· * k.hwTicksPerTick.toNat) hn
    simp only [Nat.add_mul] at hmul
    rw [TickStruct.total, TickStruct.total, TickStruct.total, ← Nat.mul_assoc]
    omega
  by_cases hborrow : a.hwTicks < b.hwTicks
  · have hsum : (a.hwTicks + k.hwTicksPerTick - b.hwTicks).toNat + b.hwTicks.toNat =
        a.hwTicks.toNat + k.hwTicksPerTick.toNat := by
      rw [UInt32.lt_iff_toNat_lt] at hborrow
      rw [UInt32.toNat_sub, UInt32.toNat_add]
      omega
    rw [UInt32.lt_iff_toNat_lt] at hborrow
    rw [pspSubtractTicks, if_pos (UInt32.lt_iff_toNat_lt.2 hborrow)]
    exact ⟨by dsimp only; omega, htotal 1 _ le_rfl rfl (by rw [Nat.one_mul]; exact hsum)⟩
  · have hsum : (a.hwTicks - b.hwTicks).toNat + b.hwTicks.toNat = a.hwTicks.toNat := by
      rw [UInt32.lt_iff_toNat_lt] at hborrow
      rw [UInt32.toNat_sub_of_le _ _ (UInt32.le_iff_toNat_le.2 (Nat.not_lt.1 hborrow))]
      omega
    rw [pspSubtractTicks, if_neg hborrow]
    refine ⟨by dsimp only; omega, htotal 0 _ (Nat.zero_le 1) ?_ ?_⟩
    · exact (UInt64.sub_zero _).symm
    · rw [Nat.zero_mul]
      exact hsum

theorem pspSubtractTicks_total (ha : a.hwTicks < k.hwTicksPerTick)
    (hb : b.hwTicks < k.hwTicksPerTick) :
    ((pspSubtractTicks k a b).total k : ℤ) =
      ((a.total k : ℤ) - b.total k) % (2 ^ 64 * k.hwTicksPerTick.toNat) := by
  obtain ⟨hnormal, n, hn⟩ := pspSubtractTicks_spec ha hb
  have hlt := TickStruct.total_lt hnormal
  have hdiff : (a.total k : ℤ) - b.total k =
      (pspSubtractTicks k a b).total k +
        (2 ^ 64 * k.hwTicksPerTick.toNat) * (-(n : ℤ)) := by
    have hn' := congrArg (fun x : ℕ => (x : ℤ)) hn
    push_cast at hn'
    linarith
  rw [hdiff, Int.add_mul_emod_self_left, Int.emod_eq_of_lt (by positivity) (by exact_mod_cast hlt)]

/-- Taking back a summand. -/
theorem pspSubtractTicks_pspAddTicks (ha : a.hwTicks < k.hwTicksPerTick)
    (hb : b.hwTicks < k.hwTicksPerTick) : pspSubtractTicks k (pspAddTicks k a b) b = a := by
  obtain ⟨hnormal, -⟩ := pspAddTicks_spec ha (UInt32.le_of_lt hb)
  obtain ⟨hnormal', -⟩ := pspSubtractTicks_spec hnormal hb
  refine TickStruct.eq_of_total hnormal' ha ?_
  have htotal := pspSubtractTicks_total hnormal hb
  rw [pspAddTicks_total ha hb] at htotal
  push_cast at htotal
  rw [Int.emod_sub_emod, Int.add_sub_cancel, Int.emod_eq_of_lt (by positivity)
    (by exact_mod_cast TickStruct.total_lt ha)] at htotal
  exact_mod_cast htotal

/-! ## The clamped difference -/

/-- The sign bit of one half with the other bits of the other half. -/
theorem exchange_toNat (x y : UInt32) :
    ((x &&& (MAX_UINT_32 ^^^ MAX_INT_32)) ||| (y &&& MAX_INT_32)).toNat =
      x.toNat / 2 ^ 31 * 2 ^ 31 + y.toNat % 2 ^ 31 := by
  have hx := x.toNat_lt
  have hsign : x.toNat &&& 2 ^ 31 = 2 ^ 31 * (x.toNat / 2 ^ 31) := by
    rw [Nat.and_two_pow, Nat.testBit_eq_decide_div_mod_eq, Nat.mul_comm]
    obtain h | h : x.toNat / 2 ^ 31 = 0 ∨ x.toNat / 2 ^ 31 = 1 := by omega
    · rw [h]
      rfl
    · rw [h]
      rfl
  have hrest : y.toNat &&& (2 ^ 31 - 1) = y.toNat % 2 ^ 31 := Nat.and_two_pow_sub_one_eq_mod _ _
  rw [UInt32.toNat_or, UInt32.toNat_and, UInt32.toNat_and]
  change (x.toNat &&& 2 ^ 31) ||| (y.toNat &&& (2 ^ 31 - 1)) = _
  rw [hsign, hrest, ← Nat.two_pow_add_eq_or_of_lt (Nat.mod_lt _ (by decide)), Nat.mul_comm]

theorem toInt_toInt32 (x : UInt32) :
    x.toInt32.toInt = if x.toNat < 2 ^ 31 then (x.toNat : ℤ) else x.toNat - 2 ^ 32 := by
  have hx := x.toNat_lt
  have hbits : x.toInt32.toInt = x.toBitVec.toInt := rfl
  rw [hbits, BitVec.toInt_eq_toNat_bmod, UInt32.toNat_toBitVec, Int.bmod_def]
  split_ifs <;> omega

theorem bmod_toNat (r : UInt64) :
    Int.bmod r.toNat (2 ^ 64) =
      if r.toNat < 2 ^ 63 then (r.toNat : ℤ) else r.toNat - 2 ^ 64 := by
  have hr := r.toNat_lt
  rw [Int.bmod_def]
  split_ifs <;> omega

/-- The nearest number of 32 bits. -/
def clampInt32 (v : ℤ) : ℤ := max (-2 ^ 31) (min (2 ^ 31 - 1) v)

theorem clampInt32_eq (v : ℤ) :
    clampInt32 v = if v < -2 ^ 31 then -2 ^ 31 else if 2 ^ 31 ≤ v then 2 ^ 31 - 1 else v := by
  rw [clampInt32]
  split_ifs <;> omega

/-- With the sign bits of its halves exchanged a number is its value in 32 bits and copies of its
sign just when the value is in the range of 32 bits. -/
theorem pspSubtractTicksInt32_of_ticks {r : UInt64}
    (hr : (if a.hwTicks < b.hwTicks then a.ticks - b.ticks - 1 else a.ticks - b.ticks) = r) :
    (pspSubtractTicksInt32 a b).1.toInt = clampInt32 (Int.bmod r.toNat (2 ^ 64)) ∧
      ((pspSubtractTicksInt32 a b).2 = true ↔
        clampInt32 (Int.bmod r.toNat (2 ^ 64)) ≠ Int.bmod r.toNat (2 ^ 64)) := by
  have hlt := r.toNat_lt
  have hhigh : (r >>> 32).toUInt32.toNat = r.toNat / 2 ^ 32 := by
    rw [UInt64.toNat_toUInt32, UInt64.toNat_shiftRight]
    change r.toNat >>> 32 % 2 ^ 32 = _
    rw [Nat.shiftRight_eq_div_pow]
    omega
  have hlow : r.toUInt32.toNat = r.toNat % 2 ^ 32 := UInt64.toNat_toUInt32 r
  rw [pspSubtractTicksInt32]
  simp only [hr]
  have hvalue := exchange_toNat (r >>> 32).toUInt32 r.toUInt32
  have hcopies := exchange_toNat r.toUInt32 (r >>> 32).toUInt32
  rw [hhigh, hlow] at hvalue hcopies
  generalize ((r >>> 32).toUInt32 &&& (MAX_UINT_32 ^^^ MAX_INT_32)) |||
    (r.toUInt32 &&& MAX_INT_32) = x at hvalue
  generalize (r.toUInt32 &&& (MAX_UINT_32 ^^^ MAX_INT_32)) |||
    ((r >>> 32).toUInt32 &&& MAX_INT_32) = y at hcopies
  have hsign : (x >>> 31).toNat = r.toNat / 2 ^ 63 := by
    rw [UInt32.toNat_shiftRight]
    change x.toNat >>> 31 = _
    rw [Nat.shiftRight_eq_div_pow]
    omega
  have hmul : ((x >>> 31) * MAX_UINT_32).toNat = r.toNat / 2 ^ 63 * (2 ^ 32 - 1) := by
    rw [UInt32.toNat_mul, hsign]
    exact Nat.mod_eq_of_lt (show r.toNat / 2 ^ 63 * (2 ^ 32 - 1) < 2 ^ 32 by omega)
  have hadd : (MAX_INT_32 + (x >>> 31)).toNat = 2 ^ 31 - 1 + r.toNat / 2 ^ 63 := by
    rw [UInt32.toNat_add, hsign]
    exact Nat.mod_eq_of_lt (show 2 ^ 31 - 1 + r.toNat / 2 ^ 63 < 2 ^ 32 by omega)
  rw [bmod_toNat, clampInt32_eq]
  by_cases hclamp : (x >>> 31) * MAX_UINT_32 ≠ y
  · have hne : r.toNat / 2 ^ 63 * (2 ^ 32 - 1) ≠ y.toNat := by
      rw [← hmul]
      exact fun h => hclamp (UInt32.toNat_inj.1 h)
    rw [if_pos hclamp, toInt_toInt32, hadd]
    constructor
    · split_ifs <;> omega
    · refine iff_of_true rfl ?_
      split_ifs <;> omega
  · have heq : r.toNat / 2 ^ 63 * (2 ^ 32 - 1) = y.toNat := by
      rw [← hmul, not_not.1 hclamp]
    rw [if_neg hclamp, toInt_toInt32]
    constructor
    · split_ifs <;> omega
    · refine iff_of_false Bool.false_ne_true (not_not.2 ?_)
      split_ifs <;> omega

/-- The whole ticks of a difference. -/
theorem floor_total (ha : a.hwTicks < k.hwTicksPerTick) (hb : b.hwTicks < k.hwTicksPerTick) :
    ((a.total k : ℤ) - b.total k) / k.hwTicksPerTick.toNat =
      a.ticks.toNat - b.ticks.toNat - if a.hwTicks < b.hwTicks then 1 else 0 := by
  rw [UInt32.lt_iff_toNat_lt] at ha hb
  have hpos : (0 : ℤ) < k.hwTicksPerTick.toNat := by exact_mod_cast k.hwTicks_pos
  have hsplit : (a.total k : ℤ) - b.total k =
      ((a.hwTicks.toNat : ℤ) - b.hwTicks.toNat) +
        (a.ticks.toNat - b.ticks.toNat) * k.hwTicksPerTick.toNat := by
    rw [TickStruct.total, TickStruct.total]
    push_cast
    ring
  rw [hsplit, Int.add_mul_ediv_right _ _ hpos.ne']
  have hhw : ((a.hwTicks.toNat : ℤ) - b.hwTicks.toNat) / k.hwTicksPerTick.toNat =
      -if a.hwTicks < b.hwTicks then 1 else 0 := by
    split_ifs with hlt
    · rw [UInt32.lt_iff_toNat_lt] at hlt
      rw [Int.ediv_eq_iff_of_pos hpos]
      omega
    · rw [UInt32.lt_iff_toNat_lt] at hlt
      exact Int.ediv_eq_zero_of_lt (by omega) (by omega)
  rw [hhw]
  ring

/-- The 64 bits of a difference, with the borrow of the hardware ticks. -/
theorem bmod_ticks (ha : a.hwTicks < k.hwTicksPerTick) (hb : b.hwTicks < k.hwTicksPerTick)
    {r : UInt64}
    (hr : (if a.hwTicks < b.hwTicks then a.ticks - b.ticks - 1 else a.ticks - b.ticks) = r) :
    Int.bmod r.toNat (2 ^ 64) =
      Int.bmod (((a.total k : ℤ) - b.total k) / k.hwTicksPerTick.toNat) (2 ^ 64) := by
  have hborrow : ∃ n : ℕ, (r.toNat : ℤ) =
      a.ticks.toNat - b.ticks.toNat - (if a.hwTicks < b.hwTicks then 1 else 0) + n * 2 ^ 64 := by
    split_ifs at hr ⊢ with hlt
    · obtain ⟨n, hn⟩ := ticks_borrow a.ticks b.ticks 1 le_rfl
      have hone : UInt64.ofNat 1 = 1 := rfl
      rw [hone, hr] at hn
      exact ⟨n, by omega⟩
    · obtain ⟨n, hn⟩ := ticks_borrow a.ticks b.ticks 0 (Nat.zero_le 1)
      have hzero : a.ticks - b.ticks - UInt64.ofNat 0 = r := (UInt64.sub_zero _).trans hr
      rw [hzero] at hn
      exact ⟨n, by omega⟩
  obtain ⟨n, hn⟩ := hborrow
  rw [floor_total ha hb, hn]
  exact Int.add_mul_bmod_self_right _ n (2 ^ 64)

/-- What the functions make of two normalised times in memory. -/
structure TickSums (k : TickRates) (m : TickMemory) (a_ptr b_ptr r_ptr : ℕ) : Prop where
  add_normalised : (pspAddTicksAt k m a_ptr b_ptr r_ptr r_ptr).hwTicks < k.hwTicksPerTick
  add_total : (pspAddTicksAt k m a_ptr b_ptr r_ptr r_ptr).total k =
    ((m a_ptr).total k + (m b_ptr).total k) % (2 ^ 64 * k.hwTicksPerTick.toNat)
  add_frame : ∀ p ≠ r_ptr, pspAddTicksAt k m a_ptr b_ptr r_ptr p = m p
  subtract_normalised :
    (pspSubtractTicksAt k m a_ptr b_ptr r_ptr r_ptr).hwTicks < k.hwTicksPerTick
  subtract_total : ((pspSubtractTicksAt k m a_ptr b_ptr r_ptr r_ptr).total k : ℤ) =
    ((m a_ptr).total k - (m b_ptr).total k : ℤ) % (2 ^ 64 * k.hwTicksPerTick.toNat)
  subtract_frame : ∀ p ≠ r_ptr, pspSubtractTicksAt k m a_ptr b_ptr r_ptr p = m p
  /-- The sum and the second summand may be anywhere when it is taken back. -/
  cancel : ∀ (m' : TickMemory) (s_ptr b_ptr' r_ptr' : ℕ),
    m' s_ptr = pspAddTicksAt k m a_ptr b_ptr r_ptr r_ptr → m' b_ptr' = m b_ptr →
    pspSubtractTicksAt k m' s_ptr b_ptr' r_ptr' r_ptr' = m a_ptr
  clamped : (pspSubtractTicksInt32 (m a_ptr) (m b_ptr)).1.toInt =
    clampInt32 (Int.bmod
      (((m a_ptr).total k - (m b_ptr).total k : ℤ) / k.hwTicksPerTick.toNat) (2 ^ 64))
  overflow : (pspSubtractTicksInt32 (m a_ptr) (m b_ptr)).2 = true ↔
    (pspSubtractTicksInt32 (m a_ptr) (m b_ptr)).1.toInt ≠
      Int.bmod (((m a_ptr).total k - (m b_ptr).total k : ℤ) / k.hwTicksPerTick.toNat) (2 ^ 64)

/-- Sums and differences of normalised times are exact but for whole ticks that wrap around. -/
theorem tick_sums (ha : (m a_ptr).hwTicks < k.hwTicksPerTick)
    (hb : (m b_ptr).hwTicks < k.hwTicksPerTick) : TickSums k m a_ptr b_ptr r_ptr := by
  obtain ⟨hvalue, hflag⟩ := pspSubtractTicksInt32_of_ticks (a := m a_ptr) (b := m b_ptr) rfl
  rw [bmod_ticks ha hb rfl] at hvalue hflag
  constructor
  · rw [pspAddTicksAt_eq, Function.update_self]
    exact (pspAddTicks_spec ha (UInt32.le_of_lt hb)).1
  · rw [pspAddTicksAt_eq, Function.update_self, pspAddTicks_total ha hb]
  · intro p hp
    rw [pspAddTicksAt_eq, Function.update_of_ne hp]
  · rw [pspSubtractTicksAt_eq, Function.update_self]
    exact (pspSubtractTicks_spec ha hb).1
  · rw [pspSubtractTicksAt_eq, Function.update_self, pspSubtractTicks_total ha hb]
  · intro p hp
    rw [pspSubtractTicksAt_eq, Function.update_of_ne hp]
  · intro m' s_ptr b_ptr' r_ptr' hs hb'
    rw [pspAddTicksAt_eq, Function.update_self] at hs
    rw [pspSubtractTicksAt_eq, Function.update_self, hs, hb', pspSubtractTicks_pspAddTicks ha hb]
  · exact hvalue
  · rw [hvalue]
    exact hflag

theorem one_pos_uint32 : (0 : UInt32) < 1 := by decide

def oneTick : TickRates := ⟨1, 1, one_pos_uint32, one_pos_uint32⟩

theorem tick_sums_zero : TickSums oneTick (fun _ => ⟨0, 0⟩) 0 1 0 :=
  tick_sums (by decide) (by decide)

end Mqx.Clock
