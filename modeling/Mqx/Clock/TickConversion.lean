import Mqx.Clock.Calendar
import Mqx.Library.Rounding

/-!
# From time to ticks

Model of `psp_msti.c`, `psp_nsti.c`, `psp_seti.c`, `psp_tiol.c` and `psp_tiad.c`. A time is a
number of ticks and of hardware ticks, which are parts of a tick.
-/

namespace Mqx.Clock

/-- The rates of the kernel data. -/
structure TickRates where
  ticksPerSecond : UInt32
  hwTicksPerTick : UInt32
  ticksPerSecond_pos : 0 < ticksPerSecond
  hwTicksPerTick_pos : 0 < hwTicksPerTick

/-- `PSP_TICK_STRUCT`. -/
structure TickStruct where
  ticks : UInt64
  hwTicks : UInt32
deriving DecidableEq

/-- A number of parts of a second, `unit` of them in one, as ticks. -/
def partsToTicks (unit half : UInt64) (k : TickRates) (parts : UInt32) : TickStruct :=
  let tmp := parts.toUInt64 * k.ticksPerSecond.toUInt64
  let ticks := tmp / unit
  let tmp := tmp % unit
  let tmp := (tmp * k.hwTicksPerTick.toUInt64 + half) / unit
  ⟨ticks, tmp.toUInt32⟩

/-- `_psp_msecs_to_ticks`. -/
def pspMsecsToTicks (k : TickRates) (msecs : UInt32) : TickStruct :=
  partsToTicks 1000 500 k msecs

/-- `_psp_nsecs_to_ticks`. -/
def pspNsecsToTicks (k : TickRates) (nsecs : UInt32) : TickStruct :=
  partsToTicks (1000 * 1000 * 1000) 500000000 k nsecs

/-- `_psp_seconds_to_ticks`. -/
def pspSecondsToTicks (k : TickRates) (seconds : UInt32) : TickStruct :=
  ⟨seconds.toUInt64 * k.ticksPerSecond.toUInt64, 0⟩

/-- `_psp_add_ticks`. -/
def pspAddTicks (k : TickRates) (a b : TickStruct) : TickStruct :=
  let ticks := a.ticks + b.ticks
  if a.hwTicks ≥ k.hwTicksPerTick - b.hwTicks then
    ⟨ticks + 1, a.hwTicks + (b.hwTicks - k.hwTicksPerTick)⟩
  else ⟨ticks, a.hwTicks + b.hwTicks⟩

/-- `_psp_time_to_ticks`. -/
def pspTimeToTicks (k : TickRates) (time : TimeStruct) : TickStruct :=
  let tick1 := pspSecondsToTicks k time.seconds
  let tick2 := pspMsecsToTicks k time.milliseconds
  pspAddTicks k tick1 tick2

/-- A time in hardware ticks. -/
def TickStruct.total (k : TickRates) (t : TickStruct) : ℕ :=
  t.ticks.toNat * k.hwTicksPerTick.toNat + t.hwTicks.toNat

/-- A part of a second in hardware ticks. -/
def exactTicks (k : TickRates) (seconds : ℚ) : ℚ :=
  seconds * k.ticksPerSecond.toNat * k.hwTicksPerTick.toNat

/-- The time is normalised and within half a hardware tick of the exact one. -/
structure Converts (k : TickRates) (t : TickStruct) (seconds : ℚ) : Prop where
  normalised : t.hwTicks < k.hwTicksPerTick
  near : |(t.total k : ℚ) - exactTicks k seconds| ≤ 1 / 2

/-! ## Parts of a second -/

variable {k : TickRates} {x : UInt32}

theorem TickRates.hwTicks_pos : 0 < k.hwTicksPerTick.toNat := by
  simpa [UInt32.lt_iff_toNat_lt] using k.hwTicksPerTick_pos

theorem toNat_mul_lt (x y : UInt32) : x.toNat * y.toNat < 2 ^ 64 := by
  have h := Nat.mul_lt_mul'' x.toNat_lt y.toNat_lt
  rwa [← Nat.pow_add] at h

/-- A unit that divides the second evenly and leaves room in 64 bits. -/
structure PartUnit (unit half : UInt64) : Prop where
  pos : 0 < unit.toNat
  le : unit.toNat ≤ 10 ^ 9
  even : unit.toNat % 2 = 0
  half : half.toNat = unit.toNat / 2

theorem partsToTicks_spec {unit half : UInt64} (hu : PartUnit unit half) (k : TickRates)
    (x : UInt32) :
    (partsToTicks unit half k x).ticks.toNat =
        x.toNat * k.ticksPerSecond.toNat / unit.toNat ∧
      (partsToTicks unit half k x).hwTicks.toNat =
        roundDiv unit.toNat
          (x.toNat * k.ticksPerSecond.toNat % unit.toNat * k.hwTicksPerTick.toNat) := by
  have hpos := hu.pos
  have hunit := hu.le
  have hmul := toNat_mul_lt x k.ticksPerSecond
  have hhw := k.hwTicksPerTick.toNat_lt
  have hle := roundDiv_mod_le unit.toNat (x.toNat * k.ticksPerSecond.toNat)
    k.hwTicksPerTick.toNat hpos hu.even
  have hrest : x.toNat * k.ticksPerSecond.toNat % unit.toNat ≤ 10 ^ 9 :=
    (Nat.mod_lt _ hpos).le.trans hunit
  have hsmall : x.toNat * k.ticksPerSecond.toNat % unit.toNat * k.hwTicksPerTick.toNat ≤
      10 ^ 9 * 2 ^ 32 := Nat.mul_le_mul hrest hhw.le
  have hhalf := hu.half
  constructor
  · simp only [partsToTicks, UInt64.toNat_div, UInt64.toNat_mul, UInt32.toNat_toUInt64,
      Nat.mod_eq_of_lt hmul]
  · have hprod : x.toNat * k.ticksPerSecond.toNat % unit.toNat * k.hwTicksPerTick.toNat <
        2 ^ 64 := by omega
    have hsum : x.toNat * k.ticksPerSecond.toNat % unit.toNat * k.hwTicksPerTick.toNat +
        unit.toNat / 2 < 2 ^ 64 := by omega
    simp only [partsToTicks, UInt64.toNat_toUInt32, UInt64.toNat_div, UInt64.toNat_add,
      UInt64.toNat_mul, UInt64.toNat_mod, UInt32.toNat_toUInt64, Nat.mod_eq_of_lt hmul, hhalf,
      Nat.mod_eq_of_lt hprod, Nat.mod_eq_of_lt hsum]
    exact Nat.mod_eq_of_lt (by rw [roundDiv] at hle; omega)

theorem partsToTicks_total {unit half : UInt64} (hu : PartUnit unit half) :
    (partsToTicks unit half k x).total k =
      roundDiv unit.toNat (x.toNat * k.ticksPerSecond.toNat * k.hwTicksPerTick.toNat) := by
  obtain ⟨hticks, hhw⟩ := partsToTicks_spec hu k x
  rw [TickStruct.total, hticks, hhw, div_mul_add_roundDiv_mod _ _ _ hu.pos]

/-- Parts of a second are rounded correctly, but the hardware ticks can be a whole tick. -/
theorem partsToTicks_converts_iff {unit half : UInt64} (hu : PartUnit unit half) :
    Converts k (partsToTicks unit half k x) (x.toNat / unit.toNat) ↔
      unit.toNat / 2 < (unit.toNat - x.toNat * k.ticksPerSecond.toNat % unit.toNat) *
        k.hwTicksPerTick.toNat := by
  obtain ⟨-, hhw⟩ := partsToTicks_spec hu k x
  have hexact : exactTicks k (x.toNat / unit.toNat) =
      ((x.toNat * k.ticksPerSecond.toNat * k.hwTicksPerTick.toNat : ℕ) : ℚ) / unit.toNat := by
    rw [exactTicks]
    push_cast
    ring
  have hnormal : (partsToTicks unit half k x).hwTicks < k.hwTicksPerTick ↔
      unit.toNat / 2 < (unit.toNat - x.toNat * k.ticksPerSecond.toNat % unit.toNat) *
        k.hwTicksPerTick.toNat := by
    rw [UInt32.lt_iff_toNat_lt, hhw]
    exact roundDiv_mod_lt_iff _ _ _ hu.pos hu.even
  rw [← hnormal]
  refine ⟨fun h => h.normalised, fun h => ⟨h, ?_⟩⟩
  rw [partsToTicks_total hu, hexact]
  exact abs_roundDiv_sub_le hu.pos hu.even

theorem partUnit_msecs : PartUnit 1000 500 := ⟨by decide, by decide, by decide, by decide⟩

theorem partUnit_nsecs : PartUnit (1000 * 1000 * 1000) 500000000 :=
  ⟨by decide, by decide, by decide, by decide⟩

/-! ## Seconds and milliseconds -/

variable {time : TimeStruct}

/-- The sum is normalised also when the second summand is a whole tick too far; whole ticks wrap
around. -/
theorem pspAddTicks_spec {a b : TickStruct} (ha : a.hwTicks < k.hwTicksPerTick)
    (hb : b.hwTicks ≤ k.hwTicksPerTick) :
    (pspAddTicks k a b).hwTicks < k.hwTicksPerTick ∧
      ∃ n, (pspAddTicks k a b).total k + n * 2 ^ 64 * k.hwTicksPerTick.toNat =
        a.total k + b.total k := by
  rw [UInt32.lt_iff_toNat_lt] at ha ⊢
  rw [UInt32.le_iff_toNat_le] at hb
  have hhw := k.hwTicksPerTick.toNat_lt
  have hroom : (k.hwTicksPerTick - b.hwTicks).toNat = k.hwTicksPerTick.toNat - b.hwTicks.toNat :=
    UInt32.toNat_sub_of_le _ _ (UInt32.le_iff_toNat_le.mpr hb)
  by_cases hcarry : a.hwTicks ≥ k.hwTicksPerTick - b.hwTicks
  · have hsum : (a.hwTicks + (b.hwTicks - k.hwTicksPerTick)).toNat + k.hwTicksPerTick.toNat =
        a.hwTicks.toNat + b.hwTicks.toNat := by
      rw [ge_iff_le, UInt32.le_iff_toNat_le, hroom] at hcarry
      rw [UInt32.toNat_add, UInt32.toNat_sub]
      omega
    have hdiv := Nat.div_add_mod' (a.ticks.toNat + b.ticks.toNat + 1) (2 ^ 64)
    have hticks : (a.ticks + b.ticks + 1).toNat =
        (a.ticks.toNat + b.ticks.toNat + 1) % 2 ^ 64 := by
      simp [UInt64.toNat_add]
    rw [pspAddTicks, if_pos hcarry]
    refine ⟨by dsimp only; omega, (a.ticks.toNat + b.ticks.toNat + 1) / 2 ^ 64, ?_⟩
    simp only [TickStruct.total, hticks]
    generalize (a.ticks.toNat + b.ticks.toNat + 1) / 2 ^ 64 = n at hdiv ⊢
    generalize (a.ticks.toNat + b.ticks.toNat + 1) % 2 ^ 64 = r at hdiv ⊢
    have hmul : n * 2 ^ 64 * k.hwTicksPerTick.toNat + r * k.hwTicksPerTick.toNat =
        a.ticks.toNat * k.hwTicksPerTick.toNat + b.ticks.toNat * k.hwTicksPerTick.toNat +
          k.hwTicksPerTick.toNat := by
      rw [← Nat.add_mul, hdiv]
      ring
    omega
  · have hsum : (a.hwTicks + b.hwTicks).toNat = a.hwTicks.toNat + b.hwTicks.toNat := by
      rw [ge_iff_le, UInt32.le_iff_toNat_le, hroom] at hcarry
      rw [UInt32.toNat_add]
      omega
    have hdiv := Nat.div_add_mod' (a.ticks.toNat + b.ticks.toNat) (2 ^ 64)
    rw [ge_iff_le, UInt32.le_iff_toNat_le, hroom] at hcarry
    rw [pspAddTicks, if_neg (by rw [ge_iff_le, UInt32.le_iff_toNat_le, hroom]; exact hcarry)]
    refine ⟨by dsimp only; omega, (a.ticks.toNat + b.ticks.toNat) / 2 ^ 64, ?_⟩
    simp only [TickStruct.total, UInt64.toNat_add, hsum]
    generalize (a.ticks.toNat + b.ticks.toNat) / 2 ^ 64 = n at hdiv ⊢
    generalize (a.ticks.toNat + b.ticks.toNat) % 2 ^ 64 = r at hdiv ⊢
    have hmul : n * 2 ^ 64 * k.hwTicksPerTick.toNat + r * k.hwTicksPerTick.toNat =
        a.ticks.toNat * k.hwTicksPerTick.toNat + b.ticks.toNat * k.hwTicksPerTick.toNat := by
      rw [← Nat.add_mul, hdiv]
      ring
    omega

/-- The milliseconds of a time, as a number. -/
def TimeStruct.millis (time : TimeStruct) : ℕ :=
  1000 * time.seconds.toNat + time.milliseconds.toNat

theorem pspTimeToTicks_spec (k : TickRates) (time : TimeStruct) :
    (pspTimeToTicks k time).hwTicks < k.hwTicksPerTick ∧
      ∃ n, (pspTimeToTicks k time).total k + n * 2 ^ 64 * k.hwTicksPerTick.toNat =
        roundDiv 1000 (time.millis * k.ticksPerSecond.toNat * k.hwTicksPerTick.toNat) := by
  have hfirst : (pspSecondsToTicks k time.seconds).total k =
      time.seconds.toNat * k.ticksPerSecond.toNat * k.hwTicksPerTick.toNat := by
    have hmul := toNat_mul_lt time.seconds k.ticksPerSecond
    simp only [TickStruct.total, pspSecondsToTicks, UInt64.toNat_mul, UInt32.toNat_toUInt64,
      Nat.mod_eq_of_lt hmul]
    rfl
  have hsecond := @partsToTicks_total k time.milliseconds _ _ partUnit_msecs
  obtain ⟨-, hhw⟩ := partsToTicks_spec partUnit_msecs k time.milliseconds
  have hle : (pspMsecsToTicks k time.milliseconds).hwTicks ≤ k.hwTicksPerTick := by
    rw [UInt32.le_iff_toNat_le, pspMsecsToTicks, hhw]
    exact roundDiv_mod_le _ _ _ partUnit_msecs.pos partUnit_msecs.even
  obtain ⟨hnormal, n, hn⟩ := @pspAddTicks_spec k (pspSecondsToTicks k time.seconds) _
    k.hwTicksPerTick_pos hle
  refine ⟨hnormal, n, ?_⟩
  rw [pspTimeToTicks, hn, hfirst, pspMsecsToTicks, hsecond, TimeStruct.millis]
  have hunit : (1000 : UInt64).toNat = 1000 := rfl
  have hsplit : (1000 * time.seconds.toNat + time.milliseconds.toNat) * k.ticksPerSecond.toNat *
      k.hwTicksPerTick.toNat = time.milliseconds.toNat * k.ticksPerSecond.toNat *
        k.hwTicksPerTick.toNat +
      time.seconds.toNat * k.ticksPerSecond.toNat * k.hwTicksPerTick.toNat * 1000 := by ring
  rw [hsplit, hunit, roundDiv, roundDiv, Nat.add_right_comm, Nat.add_mul_div_right _ _ (by omega),
    Nat.add_comm]

/-- A time is converted exactly as long as its ticks fit in 64 bits. -/
theorem pspTimeToTicks_converts_iff :
    Converts k (pspTimeToTicks k time) (time.seconds.toNat + time.milliseconds.toNat / 1000) ↔
      time.millis * k.ticksPerSecond.toNat * k.hwTicksPerTick.toNat + 500 <
        1000 * (2 ^ 64 * k.hwTicksPerTick.toNat) := by
  obtain ⟨hnormal, n, hn⟩ := pspTimeToTicks_spec k time
  have hpos := k.hwTicks_pos
  have hexact : exactTicks k (time.seconds.toNat + time.milliseconds.toNat / 1000) =
      ((time.millis * k.ticksPerSecond.toNat * k.hwTicksPerTick.toNat : ℕ) : ℚ) /
        (1000 : ℕ) := by
    rw [exactTicks, TimeStruct.millis]
    push_cast
    ring
  have hsmall : (pspTimeToTicks k time).total k < 2 ^ 64 * k.hwTicksPerTick.toNat := by
    rw [UInt32.lt_iff_toNat_lt] at hnormal
    have hticks : (pspTimeToTicks k time).ticks.toNat * k.hwTicksPerTick.toNat ≤
        (2 ^ 64 - 1) * k.hwTicksPerTick.toNat :=
      Nat.mul_le_mul_right _ (Nat.le_sub_one_of_lt (UInt64.toNat_lt _))
    rw [TickStruct.total]
    omega
  have hfits : time.millis * k.ticksPerSecond.toNat * k.hwTicksPerTick.toNat + 500 <
      1000 * (2 ^ 64 * k.hwTicksPerTick.toNat) ↔
      roundDiv 1000 (time.millis * k.ticksPerSecond.toNat * k.hwTicksPerTick.toNat) <
        2 ^ 64 * k.hwTicksPerTick.toNat := by
    rw [roundDiv, Nat.div_lt_iff_lt_mul (by omega)]
    omega
  rw [hfits, ← hn]
  constructor
  · intro h
    have hnear := h.near
    rcases Nat.eq_zero_or_pos n with rfl | hpn
    · omega
    · have hk : 1 < n * 2 ^ 64 * k.hwTicksPerTick.toNat := by
        have := Nat.mul_pos hpn hpos
        rw [Nat.mul_right_comm]
        omega
      have hfar := lt_abs_sub_of_add_roundDiv (by omega) rfl hk hn.symm
      rw [hexact] at hnear
      exact absurd hnear (not_le.mpr hfar)
  · intro hlt
    refine ⟨hnormal, ?_⟩
    have hzero : n * 2 ^ 64 * k.hwTicksPerTick.toNat = 0 := by
      rcases Nat.eq_zero_or_pos n with rfl | hpn
      · simp
      · have := Nat.mul_le_mul_right k.hwTicksPerTick.toNat
          (Nat.mul_le_mul_right (2 ^ 64) hpn)
        omega
    rw [hzero, Nat.add_zero] at hn
    rw [hn, hexact]
    exact abs_roundDiv_sub_le (by omega) rfl

/-- Milliseconds and nanoseconds become a normalised time unless their last part of a tick is
within half a hardware tick of a whole one; seconds and milliseconds do as long as the ticks fit
in 64 bits. -/
theorem tick_conversion (k : TickRates) (x : UInt32) (time : TimeStruct) :
    (Converts k (pspMsecsToTicks k x) (x.toNat / 1000) ↔
        500 < (1000 - x.toNat * k.ticksPerSecond.toNat % 1000) * k.hwTicksPerTick.toNat) ∧
      (Converts k (pspNsecsToTicks k x) (x.toNat / 1000000000) ↔
        500000000 < (1000000000 - x.toNat * k.ticksPerSecond.toNat % 1000000000) *
          k.hwTicksPerTick.toNat) ∧
      (Converts k (pspTimeToTicks k time)
          (time.seconds.toNat + time.milliseconds.toNat / 1000) ↔
        (1000 * time.seconds.toNat + time.milliseconds.toNat) * k.ticksPerSecond.toNat *
          k.hwTicksPerTick.toNat + 500 < 1000 * (2 ^ 64 * k.hwTicksPerTick.toNat)) := by
  have hmsecs := @partsToTicks_converts_iff k x _ _ partUnit_msecs
  have hnsecs := @partsToTicks_converts_iff k x _ _ partUnit_nsecs
  have h1 : (1000 : UInt64).toNat = 1000 := rfl
  have h2 : (1000 * 1000 * 1000 : UInt64).toNat = 1000000000 := rfl
  rw [h1] at hmsecs
  rw [h2] at hnsecs
  exact ⟨hmsecs, hnsecs, pspTimeToTicks_converts_iff⟩

theorem rates200_pos : (0 : UInt32) < 200 ∧ (0 : UInt32) < 480000 := by decide

/-- The rates of 200 ticks a second and 480000 hardware ticks a tick. -/
def rates200 : TickRates := ⟨200, 480000, rates200_pos.1, rates200_pos.2⟩

/-- At 200 ticks a second, 4999995 nanoseconds become a whole tick of hardware ticks. -/
theorem tick_conversion_whole :
    ¬ ∀ (k : TickRates) (x : UInt32) (time : TimeStruct),
      Converts k (pspMsecsToTicks k x) (x.toNat / 1000) ∧
        Converts k (pspNsecsToTicks k x) (x.toNat / 1000000000) ∧
        Converts k (pspTimeToTicks k time)
          (time.seconds.toNat + time.milliseconds.toNat / 1000) := by
  intro h
  have hnormal := (h rates200 4999995 ⟨0, 0⟩).2.1.normalised
  exact absurd hnormal (by decide)

end Mqx.Clock
