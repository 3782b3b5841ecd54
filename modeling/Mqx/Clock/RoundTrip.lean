import Mqx.Clock.Calendar

/-!
# Dates of the calendar and back

The date that `timeToDate` finds is the date of the Gregorian calendar, and
`timeFromDate` leads back to the same second.
-/

namespace Mqx.Clock

open Gregorian

/-! ## Conversions -/

theorem toInt_toInt16 {x : UInt32} (h : x.toNat < 2 ^ 15) : (toInt16 x).toInt = x.toNat := by
  have hx : x.toUInt16.toBitVec.toNat = x.toNat := by
    rw [UInt16.toNat_toBitVec, UInt32.toNat_toUInt16]
    omega
  change x.toUInt16.toBitVec.toInt = x.toNat
  rw [BitVec.toInt_eq_toNat_of_lt (by omega), hx]

theorem toNat_ofInt16 {x : Int16} (h : 0 ≤ x.toInt) : (ofInt16 x).toNat = x.toInt.toNat := by
  have hx : 0 ≤ x.toInt32 := by
    rw [Int32.le_iff_toInt_le, Int16.toInt_toInt32]
    exact h
  rw [ofInt16, Int32.toNat_toUInt32_of_le hx]
  simp [Int32.toNatClampNeg]

theorem toNat_toUInt16 {x : Int16} (h : 0 ≤ x.toInt) : x.toUInt16.toNat = x.toInt.toNat :=
  Int16.toNat_toUInt16_of_le (Int16.le_iff_toInt_le.mpr h)

theorem toNat_sub_mul {a b c : UInt32} (h : b.toNat * c.toNat ≤ a.toNat) :
    (a - b * c).toNat = a.toNat - b.toNat * c.toNat := by
  have ha := a.toNat_lt
  have hmul : (b * c).toNat = b.toNat * c.toNat := by
    rw [UInt32.toNat_mul]
    exact Nat.mod_eq_of_lt (by omega)
  rw [UInt32.toNat_sub_of_le, hmul]
  rw [UInt32.le_iff_toNat_le, hmul]
  exact h

theorem timeCheckIfLeap_eq {y : Int16} (h : 0 ≤ y.toInt) :
    timeCheckIfLeap y.toUInt16 = decide (IsLeap y.toInt.toNat) := by
  have hmod : ∀ n : UInt16, y.toUInt16 % n = 0 ↔ y.toInt.toNat % n.toNat = 0 := by
    intro n
    rw [← UInt16.toNat_inj, UInt16.toNat_mod, toNat_toUInt16 h]
    rfl
  have h4 := hmod 4
  have h100 := hmod 100
  have h400 := hmod 400
  simp only [UInt16.reduceToNat] at h4 h100 h400
  rw [Bool.eq_iff_iff, decide_eq_true_eq, timeCheckIfLeap, IsLeap]
  simp only [h4, h100, h400]
  generalize y.toInt.toNat = n
  split_ifs <;> simp only [true_iff, false_iff] <;> omega

/-- The table holds the lengths of the months. -/
theorem timeDaysInMonthInternal_eq {m : Int16} (y : ℕ) (h₁ : 1 ≤ m.toInt) (h₂ : m.toInt ≤ 12) :
    (timeDaysInMonthInternal (decide (IsLeap y)) m).toNat = monthLength y m.toInt.toNat := by
  unfold timeDaysInMonthInternal monthLength
  generalize m.toInt = k at h₁ h₂
  by_cases h : IsLeap y
  · simp only [h, decide_true, if_true]
    interval_cases k <;> rfl
  · simp only [h, decide_false, if_false, Bool.false_eq_true]
    interval_cases k <;> rfl

/-! ## The year and the month -/

/-- The number of 1 January 1970. -/
def firstDay : ℕ := 719162

theorem daysBeforeYear_first : daysBeforeYear 1970 = firstDay := by
  have h := daysBeforeYear_eq 1969
  exact Nat.add_right_cancel h

/-- Between 1970 and 2099 every fourth year is a leap year. -/
theorem daysBeforeYear_block {q t : ℕ} (hq : q ≤ 32) (ht : t ≤ 3) :
    daysBeforeYear (4 * q + t + 1969) + 365 = firstDay + 1461 * q + 365 * t := by
  have hbefore : daysBeforeYear (4 * q + t + 1969) + (4 * q + t + 1968) / 100 =
      365 * (4 * q + t + 1968) + (4 * q + t + 1968) / 4 + (4 * q + t + 1968) / 400 :=
    daysBeforeYear_eq (4 * q + t + 1968)
  unfold firstDay
  omega

theorem yearLength_block {q t : ℕ} (hq : q ≤ 32) (ht : t ≤ 3) :
    yearLength (4 * q + t + 1969) = if t = 3 ∧ 4 * q + t + 1969 ≠ 2100 then 366 else 365 := by
  unfold yearLength
  refine if_congr ?_ rfl rfl
  unfold IsLeap
  omega

/-- A year and the day in it, from the number of a day in blocks of four years. -/
theorem year_of_block {n q r t : ℕ} (hn : n ≤ 47481) (hq : q = (n + 365) / 1461)
    (hr : r = (n + 365) % 1461) (ht : t = min (r / 365) 3) :
    1970 ≤ 4 * q + t + 1969 ∧ 4 * q + t + 1969 ≤ 2099 ∧ t * 365 ≤ r ∧
    r - t * 365 < yearLength (4 * q + t + 1969) ∧
    daysBeforeYear (4 * q + t + 1969) + (r - t * 365) = firstDay + n := by
  have hsum : 1461 * q + r = n + 365 := by rw [hq, hr, Nat.div_add_mod]
  have hrest : r < 1461 := by rw [hr]; exact Nat.mod_lt _ (by omega)
  clear hq hr
  have hlow : t ≤ 3 ∧ t * 365 ≤ r ∧ r < t * 365 + 366 ∧ (t ≠ 3 → r < t * 365 + 365) := by
    clear hsum
    omega
  clear ht
  obtain ⟨hthree, hle, hlast, hshort⟩ := hlow
  have hq : q ≤ 32 := by omega
  have hbefore := daysBeforeYear_block hq hthree
  have hlength := yearLength_block hq hthree
  refine ⟨by omega, by omega, hle, ?_, by omega⟩
  rw [hlength]
  split_ifs with hleap
  · omega
  · have hfew : t ≠ 3 := fun hthird => hleap ⟨hthird, by omega⟩
    have hlt := hshort hfew
    omega

theorem splitYear_spec (day : UInt32) (h : day.toNat ≤ 47481) :
    1970 ≤ (splitYear day).1.toNat ∧ (splitYear day).1.toNat ≤ 2099 ∧
    (splitYear day).2.toNat < yearLength (splitYear day).1.toNat ∧
    daysBeforeYear (splitYear day).1.toNat + (splitYear day).2.toNat =
      firstDay + day.toNat := by
  have hq : (day.toNat + 365) / 1461 ≤ 32 := by omega
  have hday : (day + 365).toNat = day.toNat + 365 := by
    simp only [UInt32.toNat_add, UInt32.reduceToNat]
    omega
  have hblock : (4 * ((day + 365) / 1461)).toNat = 4 * ((day.toNat + 365) / 1461) := by
    simp only [UInt32.toNat_mul, UInt32.toNat_div, hday, UInt32.reduceToNat]
    omega
  have hdays : (4 * ((day + 365) / 1461) * 1461 / 4).toNat = (day.toNat + 365) / 1461 * 1461 := by
    simp only [UInt32.toNat_div, UInt32.toNat_mul, hblock, UInt32.reduceToNat]
    omega
  have hrest : (day + 365 - 4 * ((day + 365) / 1461) * 1461 / 4).toNat =
      (day.toNat + 365) % 1461 := by
    rw [UInt32.toNat_sub_of_le, hdays, hday]
    · omega
    · rw [UInt32.le_iff_toNat_le, hdays, hday]
      omega
  unfold splitYear clkFirstYear
  simp only
  generalize day + 365 - 4 * ((day + 365) / 1461) * 1461 / 4 = rest at *
  have htmp : (if rest / 365 = 4 then 3 else rest / 365).toNat =
      min ((day.toNat + 365) % 1461 / 365) 3 := by
    have hdiv : (rest / 365).toNat = (day.toNat + 365) % 1461 / 365 := by
      rw [UInt32.toNat_div, hrest]
      rfl
    by_cases h4 : rest / 365 = 4
    · simp only [h4, UInt32.reduceToNat] at hdiv
      simp only [h4, if_true, UInt32.reduceToNat]
      omega
    · rw [if_neg h4, hdiv]
      simp only [← UInt32.toNat_inj, hdiv, UInt32.reduceToNat] at h4
      omega
  generalize (if rest / 365 = 4 then 3 else rest / 365) = tmp at *
  have hyear : (4 * ((day + 365) / 1461) + tmp + 1970 - 1).toNat =
      4 * ((day.toNat + 365) / 1461) + tmp.toNat + 1969 := by
    simp only [UInt32.toNat_sub, UInt32.toNat_add, hblock, UInt32.reduceToNat]
    omega
  have hyday : (rest - tmp * 365).toNat = rest.toNat - tmp.toNat * 365 := by
    simp only [UInt32.toNat_sub, UInt32.toNat_mul, UInt32.reduceToNat]
    omega
  obtain ⟨hfirst, hlast, -, hlength, hnumber⟩ := year_of_block h rfl rfl htmp
  rw [hyear, hyday, hrest]
  exact ⟨hfirst, hlast, hlength, hnumber⟩

/-- The loop over the months, entered with a day of the year, ends with a day of the
month. -/
theorem monthLoop_spec (y fuel : ℕ) (day : UInt32) (month : Int16)
    (h₁ : 1 ≤ month.toInt) (hfuel : month.toInt + fuel = 13)
    (h : daysBeforeMonth y month.toInt.toNat + day.toNat < yearLength y) :
    ∃ r, monthLoop (decide (IsLeap y)) fuel day month = some r ∧
      1 ≤ r.2.toInt ∧ r.2.toInt ≤ 12 ∧ r.1.toNat < monthLength y r.2.toInt.toNat ∧
      daysBeforeMonth y r.2.toInt.toNat + r.1.toNat =
        daysBeforeMonth y month.toInt.toNat + day.toNat := by
  induction fuel generalizing day month with
  | zero =>
    have hlast : month.toInt.toNat = 13 := by omega
    rw [hlast, daysBeforeMonth_thirteen] at h
    omega
  | succ fuel ih =>
    have hlen := timeDaysInMonthInternal_eq y h₁ (by omega)
    have hlen32 : (timeDaysInMonthInternal (decide (IsLeap y)) month).toUInt32.toNat =
        monthLength y month.toInt.toNat := by
      rw [UInt16.toNat_toUInt32]
      exact hlen
    by_cases hge : day ≥ (timeDaysInMonthInternal (decide (IsLeap y)) month).toUInt32
    · have hle : monthLength y month.toInt.toNat ≤ day.toNat := by
        rw [← hlen32]
        exact UInt32.le_iff_toNat_le.mp hge
      have hnext : (month + 1).toInt = month.toInt + 1 := by
        rw [Int16.toInt_add, Int.bmod_eq_of_le_mul_two]
        all_goals simp only [Int16.reduceToInt]
        all_goals omega
      have hday : (day - (timeDaysInMonthInternal (decide (IsLeap y)) month).toUInt32).toNat =
          day.toNat - monthLength y month.toInt.toNat := by
        rw [UInt32.toNat_sub_of_le _ _ hge, hlen32]
      have hsucc : daysBeforeMonth y (month + 1).toInt.toNat =
          daysBeforeMonth y month.toInt.toNat + monthLength y month.toInt.toNat := by
        rw [hnext, Int.toNat_add (by omega) (by omega)]
        exact daysBeforeMonth_succ (by omega)
      obtain ⟨r, hr, hr₁, hr₂, hrlt, hreq⟩ := ih _ (month + 1) (by omega) (by omega)
        (by rw [hsucc, hday]; omega)
      refine ⟨r, ?_, hr₁, hr₂, hrlt, ?_⟩
      · rw [monthLoop, if_pos hge]
        exact hr
      · rw [hreq, hsucc, hday]
        omega
    · have h₂ : month.toInt ≤ 12 := by omega
      refine ⟨(day, month), ?_, h₁, h₂, ?_, rfl⟩
      · rw [monthLoop, if_neg hge]
      · rw [← hlen32]
        exact UInt32.lt_iff_toNat_lt.mp (UInt32.not_le.mp hge)

/-! ## Dates in range -/

/-- The fields of `date` from the year to the millisecond are those of the date `g` of the
calendar at the second `s` since 1 January 1970, with `ms` milliseconds. -/
structure CivilOf (s ms : ℕ) (date : DateStruct) (g : Date) : Prop where
  year : date.year.toInt = g.year
  month : date.month.toInt = g.month
  day : date.day.toInt = g.day
  hour : date.hour.toInt = (s / 3600 % 24 : ℕ)
  minute : date.minute.toInt = (s / 60 % 60 : ℕ)
  second : date.second.toInt = (s % 60 : ℕ)
  millisec : date.millisec.toInt = ms
  dayNumber : g.dayNumber = daysBeforeYear 1970 + s / 86400
  first : 1970 ≤ g.year
  last : g.year ≤ 2099

/-- All fields of `date` are those of the date `g`. -/
structure DateOf (s ms : ℕ) (date : DateStruct) (g : Date) : Prop
    extends CivilOf s ms date g where
  wday : date.wday.toInt = g.weekday
  yday : date.yday.toInt = g.yearDay

theorem DateOf.unique {s ms : ℕ} {date date' : DateStruct} {g : Date}
    (h : DateOf s ms date g) (h' : DateOf s ms date' g) : date = date' := by
  cases date
  cases date'
  rw [DateStruct.mk.injEq]
  exact ⟨Int16.toInt_inj.mp (h.year.trans h'.year.symm),
    Int16.toInt_inj.mp (h.month.trans h'.month.symm),
    Int16.toInt_inj.mp (h.day.trans h'.day.symm),
    Int16.toInt_inj.mp (h.hour.trans h'.hour.symm),
    Int16.toInt_inj.mp (h.minute.trans h'.minute.symm),
    Int16.toInt_inj.mp (h.second.trans h'.second.symm),
    Int16.toInt_inj.mp (h.millisec.trans h'.millisec.symm),
    Int16.toInt_inj.mp (h.wday.trans h'.wday.symm),
    Int16.toInt_inj.mp (h.yday.trans h'.yday.symm)⟩

theorem splitDay_spec (time : UInt32) (h : time.toNat < 86400) :
    (splitDay time).1.toInt = (time.toNat / 3600 : ℕ) ∧
    (splitDay time).2.1.toInt = (time.toNat / 60 % 60 : ℕ) ∧
    (splitDay time).2.2.toInt = (time.toNat % 60 : ℕ) := by
  have hhour : (toInt16 (time / 3600)).toInt = (time.toNat / 3600 : ℕ) := by
    rw [toInt_toInt16, UInt32.toNat_div] <;> simp only [UInt32.toNat_div, UInt32.reduceToNat]
    omega
  have htime : (time - ofInt16 (toInt16 (time / 3600)) * 3600).toNat = time.toNat % 3600 := by
    rw [toNat_sub_mul] <;> rw [toNat_ofInt16 (by omega), hhour] <;>
      simp only [Int.toNat_natCast, UInt32.reduceToNat] <;> omega
  unfold splitDay
  simp only
  generalize time - ofInt16 (toInt16 (time / 3600)) * 3600 = rest at *
  have hminute : (toInt16 (rest / 60)).toInt = (time.toNat / 60 % 60 : ℕ) := by
    rw [toInt_toInt16, UInt32.toNat_div] <;> simp only [UInt32.toNat_div, UInt32.reduceToNat]
    all_goals omega
  have hsecond : (rest - ofInt16 (toInt16 (rest / 60)) * 60).toNat = time.toNat % 60 := by
    rw [toNat_sub_mul] <;> rw [toNat_ofInt16 (by omega), hminute] <;>
      simp only [Int.toNat_natCast, UInt32.reduceToNat] <;> omega
  refine ⟨hhour, hminute, ?_⟩
  rw [toInt_toInt16 (by omega), hsecond]

/-- The year and the month belong to a date of the calendar, on the given day since 1
January 1970. -/
theorem splitYear_date (day : UInt32) (h : day.toNat ≤ 47481) :
    ∃ r, ∃ g : Date,
      monthLoop (timeCheckIfLeap (toInt16 (splitYear day).1).toUInt16) 12 (splitYear day).2 1 =
        some r ∧
      (toInt16 (splitYear day).1).toInt = g.year ∧ r.2.toInt = g.month ∧
      (toInt16 r.1 + 1).toInt = g.day ∧ (toInt16 (splitYear day).2).toInt = g.yearDay ∧
      g.dayNumber = firstDay + day.toNat ∧ 1970 ≤ g.year ∧ g.year ≤ 2099 := by
  obtain ⟨hfirst, hlast, hyday, hbefore⟩ := splitYear_spec day h
  generalize (splitYear day).1 = year at *
  generalize (splitYear day).2 = yday at *
  have hyear := toInt_toInt16 (x := year) (by omega)
  have hleap := timeCheckIfLeap_eq (y := toInt16 year) (by omega)
  rw [hyear, Int.toNat_natCast] at hleap
  have hjan : daysBeforeMonth year.toNat (1 : Int16).toInt.toNat = 0 := rfl
  obtain ⟨r, hr, hr₁, hr₂, hrlt, hreq⟩ := monthLoop_spec year.toNat 12 yday 1
    (by decide) (by decide) (by rw [hjan]; omega)
  rw [hjan] at hreq
  have hlen := monthLength_le year.toNat r.2.toInt.toNat
  have hday : (toInt16 r.1 + 1).toInt = (r.1.toNat + 1 : ℕ) := by
    rw [Int16.toInt_add, toInt_toInt16 (by omega), Int.bmod_eq_of_le_mul_two]
    all_goals simp only [Int16.reduceToInt]
    all_goals omega
  refine ⟨r, ⟨year.toNat, r.2.toInt.toNat, r.1.toNat + 1, by omega, by omega, by omega, by omega,
    by omega⟩, ?_, hyear, by simp only; omega, hday, ?_, ?_, hfirst, hlast⟩
  · rw [hleap]
    exact hr
  · rw [toInt_toInt16, Date.yearDay]
    · simp only
      omega
    · have hle := yearLength_le year.toNat
      omega
  · rw [Date.dayNumber, Date.yearDay]
    simp only
    omega

theorem timeToDate_spec (ts : TimeStruct)
    (h : ts.seconds.toNat + ts.milliseconds.toNat / 1000 ≤ maximumSecondsInTime.toNat) :
    ∃ ts' date g, timeToDate ts = some (ts', date) ∧
      ts'.seconds.toNat = ts.seconds.toNat + ts.milliseconds.toNat / 1000 ∧
      ts'.milliseconds.toNat = ts.milliseconds.toNat % 1000 ∧
      DateOf ts'.seconds.toNat ts'.milliseconds.toNat date g := by
  have hmax : maximumSecondsInTime.toNat = 4102444799 := rfl
  have hcarry : (ts.milliseconds / 1000).toNat = ts.milliseconds.toNat / 1000 := UInt32.toNat_div _ _
  have hms : (ts.milliseconds % 1000).toNat = ts.milliseconds.toNat % 1000 := UInt32.toNat_mod _ _
  have hs : (ts.seconds + ts.milliseconds / 1000).toNat =
      ts.seconds.toNat + ts.milliseconds.toNat / 1000 := by
    rw [UInt32.toNat_add, hcarry]
    omega
  have hcheck : ¬maximumSecondsInTime - ts.milliseconds / 1000 < ts.seconds := by
    have hlt := ts.milliseconds.toNat_lt
    rw [UInt32.lt_iff_toNat_lt, UInt32.toNat_sub, hcarry, hmax]
    omega
  unfold timeToDate
  rw [if_neg hcheck]
  simp only
  rw [hmax, ← hs] at h
  clear hmax hcheck
  generalize ts.seconds + ts.milliseconds / 1000 = s at *
  have hday : (s / 86400).toNat = s.toNat / 86400 := UInt32.toNat_div _ _
  have htime : (s - s / 86400 * 86400).toNat = s.toNat % 86400 := by
    rw [toNat_sub_mul] <;> simp only [hday, UInt32.reduceToNat] <;> omega
  obtain ⟨hhour, hminute, hsecond⟩ := splitDay_spec (s - s / 86400 * 86400) (by omega)
  rw [htime] at hhour hminute hsecond
  generalize splitDay (s - s / 86400 * 86400) = clock at *
  obtain ⟨r, g, hr, hyear, hmonth, hdate, hyday, hnumber, hfirst, hlast⟩ :=
    splitYear_date (s / 86400) (by omega)
  have hweekday : (toInt16 ((s / 86400 + 4) % 7)).toInt = g.weekday := by
    have hmod : ((s / 86400 + 4) % 7).toNat = (s.toNat / 86400 + 4) % 7 := by
      simp only [UInt32.toNat_mod, UInt32.toNat_add, hday, UInt32.reduceToNat]
      omega
    rw [toInt_toInt16 (by omega), hmod, Date.weekday, hnumber, firstDay, hday]
    omega
  rw [hr]
  refine ⟨_, _, g, rfl, hs, hms, ⟨hyear, hmonth, hdate, ?_, ?_, ?_, ?_, ?_, hfirst, hlast⟩,
    hweekday, hyday⟩
  · rw [hhour]
    simp only
    omega
  · rw [hminute]
    simp only
    omega
  · rw [hsecond]
    simp only
    omega
  · exact toInt_toInt16 (by omega)
  · rw [hnumber, hday, daysBeforeYear_first]

/-! ## Back to seconds -/

/-- Nothing is carried from a field in its range. -/
theorem normalize_eq {value boundary high : Int16} {b : ℤ} (hb : boundary.toInt = b)
    (h₁ : 0 ≤ value.toInt) (h₂ : value.toInt < b) (hh : 0 ≤ high.toInt) :
    normalize value boundary high = (true, value, high) := by
  subst hb
  have hdiv : value / boundary = 0 := by
    rw [← Int16.toInt_inj, Int16.toInt_div, Int.tdiv_eq_zero_of_lt h₁ h₂]
    rfl
  have hvalue : ¬value < 0 := by
    rw [Int16.lt_iff_toInt_lt]
    exact not_lt.mpr h₁
  have hhigh := high.toInt_lt
  unfold normalize
  simp only [hdiv, Int16.zero_mul, Int16.sub_zero, if_neg hvalue, Int16.add_zero]
  rw [if_neg (by decide), if_neg]
  simp only [Int16.reduceToInt]
  omega

theorem sumMonths_spec (y : ℕ) {m : ℕ} (h : m ≤ 11) :
    (sumMonths (decide (IsLeap y)) m).toNat = daysBeforeMonth y (m + 1) := by
  induction m with
  | zero => rfl
  | succ m ih =>
    have hcast : (Int16.ofNat (m + 1)).toInt = (m + 1 : ℕ) := Int16.toInt_ofNat_of_lt (by omega)
    have hlen := timeDaysInMonthInternal_eq (m := Int16.ofNat (m + 1)) y (by omega) (by omega)
    have hsucc := daysBeforeMonth_succ (y := y) (m := m + 1) (by omega)
    have hle := (daysBeforeMonth_le (y := y) (m := m + 1 + 1) (by omega)).trans (yearLength_le y)
    rw [sumMonths, UInt32.toNat_add, UInt16.toNat_toUInt32, hlen, ih (by omega), hcast,
      Int.toNat_natCast]
    omega

theorem normalizeDays_eq {fuel : ℕ} {date : DateStruct} {g : Date}
    (hyear : date.year.toInt = g.year) (hmonth : date.month.toInt = g.month)
    (hday : date.day.toInt = g.day) : normalizeDays (fuel + 1) date = some date := by
  have hlen := timeDaysInMonthInternal_eq (m := date.month) g.year
    (by have := g.month_pos; omega) (by have := g.month_le; omega)
  have hleap := timeCheckIfLeap_eq (y := date.year) (by omega)
  rw [hyear, Int.toNat_natCast] at hleap
  rw [hmonth, Int.toNat_natCast] at hlen
  have hpos := g.day_pos
  have hle := g.day_le
  have hone : ¬ofInt16 date.day < 1 := by
    rw [UInt32.lt_iff_toNat_lt, toNat_ofInt16 (by omega), hday]
    simp only [UInt32.reduceToNat]
    omega
  rw [normalizeDays, hleap, hlen, if_neg (by omega), if_neg hone]

/-- What a year adds to the leap days before it. -/
theorem leapDays_succ {y : ℕ} (h : 0 < y) :
    y / 4 + (y - 1) / 100 + y / 400 =
      (y - 1) / 4 + y / 100 + (y - 1) / 400 + if IsLeap y then 1 else 0 := by
  have h4 : y / 4 = (y - 1) / 4 + if y % 4 = 0 then 1 else 0 := by split_ifs <;> omega
  have h100 : y / 100 = (y - 1) / 100 + if y % 100 = 0 then 1 else 0 := by split_ifs <;> omega
  have h400 : y / 400 = (y - 1) / 400 + if y % 400 = 0 then 1 else 0 := by split_ifs <;> omega
  have hhundred : y % 400 = 0 → y % 100 = 0 := by omega
  have hfour : y % 100 = 0 → y % 4 = 0 := by omega
  rw [h4, h100, h400]
  clear h4 h100 h400
  unfold IsLeap
  by_cases hleap : y % 4 = 0
  · by_cases hcentury : y % 100 = 0
    · by_cases hquad : y % 400 = 0
      · simp only [hleap, hcentury, hquad, if_true, ne_eq, not_true_eq_false, false_or, and_self]
        omega
      · simp only [hleap, hcentury, hquad, if_true, if_false, ne_eq, not_true_eq_false, false_or,
          and_false]
        omega
    · have hquad := mt hhundred hcentury
      simp only [hleap, hcentury, hquad, if_true, if_false, ne_eq, not_false_eq_true, true_or,
        and_self]
      omega
  · have hcentury := mt hfour hleap
    have hquad := mt hhundred hcentury
    simp only [hleap, hcentury, hquad, if_false, false_and]
    omega

/-- Up to 2099 the years divisible by 100 and by 400 balance those before 1970. -/
theorem daysToYear_spec (year : UInt32) (h₁ : 1970 ≤ year.toNat) (h₂ : year.toNat ≤ 2099) :
    (daysToYear year (decide (IsLeap year.toNat))).toNat + firstDay =
      daysBeforeYear year.toNat := by
  have hsub : (year - 1970).toNat = year.toNat - 1970 := by
    simp only [UInt32.toNat_sub, UInt32.reduceToNat]
    omega
  have hleaps : (year / 4 - year / 100 + year / 400 - numLeapYearSinceFirstYear).toNat =
      year.toNat / 4 - year.toNat / 100 + year.toNat / 400 - 477 := by
    have hnum : numLeapYearSinceFirstYear.toNat = 477 := rfl
    simp only [UInt32.toNat_sub, UInt32.toNat_add, UInt32.toNat_div, hnum, UInt32.reduceToNat]
    omega
  have hbefore : daysBeforeYear year.toNat + (year.toNat - 1) / 100 =
      365 * (year.toNat - 1) + (year.toNat - 1) / 4 + (year.toNat - 1) / 400 := by
    have h := daysBeforeYear_eq (year.toNat - 1)
    rwa [Nat.sub_add_cancel (by omega)] at h
  have hall : ((year - clkFirstYear) * 365 +
      (year / 4 - year / 100 + year / 400 - numLeapYearSinceFirstYear)).toNat =
      (year.toNat - 1970) * 365 +
        (year.toNat / 4 - year.toNat / 100 + year.toNat / 400 - 477) := by
    simp only [clkFirstYear, UInt32.toNat_add, UInt32.toNat_mul, hsub, hleaps, UInt32.reduceToNat]
    omega
  have hmany : 477 + year.toNat / 100 ≤ year.toNat / 4 + year.toNat / 400 := by
    clear hsub hleaps hbefore hall
    omega
  have hfewer : year.toNat / 100 ≤ year.toNat / 4 := Nat.div_le_div_left (by omega) (by omega)
  have hsucc := @leapDays_succ year.toNat (by omega)
  unfold daysToYear firstDay
  simp only
  by_cases hleap : IsLeap year.toNat
  · have hpos : 1 ≤ (year.toNat - 1970) * 365 +
        (year.toNat / 4 - year.toNat / 100 + year.toNat / 400 - 477) := by
      have hfour := hleap.1
      omega
    have hone : (1 : UInt32) ≤ (year - clkFirstYear) * 365 +
        (year / 4 - year / 100 + year / 400 - numLeapYearSinceFirstYear) := by
      rw [UInt32.le_iff_toNat_le, hall]
      exact hpos
    rw [if_pos (by simpa using hleap), UInt32.toNat_sub_of_le _ _ hone, hall]
    simp only [UInt32.reduceToNat]
    rw [if_pos hleap] at hsucc
    clear hone hall hsub hleaps hleap
    generalize year.toNat / 4 = k4 at *
    generalize year.toNat / 100 = k100 at *
    generalize year.toNat / 400 = k400 at *
    omega
  · rw [if_neg (by simpa using hleap), hall]
    rw [if_neg hleap] at hsucc
    clear hall hsub hleaps hleap
    omega

/-- The days and the time of the day of a date of the calendar. -/
theorem countSeconds_spec {ts : TimeStruct} {date : DateStruct} {g : Date}
    (hmax : ts.seconds.toNat ≤ 4102444799)
    (h : CivilOf ts.seconds.toNat ts.milliseconds.toNat date g) :
    ∃ date', countSeconds date = (date', some ts) ∧
      DateOf ts.seconds.toNat ts.milliseconds.toNat date' g := by
  have hyear := toNat_ofInt16 (x := date.year) (by have := h.year; omega)
  have hday := toNat_ofInt16 (x := date.day) (by have := h.day; omega)
  have hhour := toNat_ofInt16 (x := date.hour) (by have := h.hour; omega)
  have hminute := toNat_ofInt16 (x := date.minute) (by have := h.minute; omega)
  have hsecond := toNat_ofInt16 (x := date.second) (by have := h.second; omega)
  have hms := toNat_ofInt16 (x := date.millisec) (by have := h.millisec; omega)
  rw [h.year, Int.toNat_natCast] at hyear
  rw [h.day, Int.toNat_natCast] at hday
  rw [h.hour, Int.toNat_natCast] at hhour
  rw [h.minute, Int.toNat_natCast] at hminute
  rw [h.second, Int.toNat_natCast] at hsecond
  rw [h.millisec, Int.toNat_natCast] at hms
  have hleap := timeCheckIfLeap_eq (y := date.year) (by have := h.year; omega)
  rw [h.year, Int.toNat_natCast] at hleap
  have htime : (ofInt16 date.hour * 3600 + ofInt16 date.minute * 60 + ofInt16 date.second).toNat =
      ts.seconds.toNat % 86400 := by
    have hm : (ofInt16 date.hour * 3600).toNat = ts.seconds.toNat / 3600 % 24 * 3600 := by
      simp only [UInt32.toNat_mul, hhour, UInt32.reduceToNat]
      omega
    have hs : (ofInt16 date.minute * 60).toNat = ts.seconds.toNat / 60 % 60 * 60 := by
      simp only [UInt32.toNat_mul, hminute, UInt32.reduceToNat]
      omega
    rw [UInt32.toNat_add, UInt32.toNat_add, hm, hs, hsecond, Nat.mod_add_mod]
    have hsum : ts.seconds.toNat / 3600 % 24 * 3600 + ts.seconds.toNat / 60 % 60 * 60 +
        ts.seconds.toNat % 60 = ts.seconds.toNat % 86400 := by
      omega
    rw [hsum]
    exact Nat.mod_eq_of_lt (by omega)
  have hyday : (sumMonths (decide (IsLeap g.year)) (date.month.toInt.toNat - 1) +
      (ofInt16 date.day - 1)).toNat = g.yearDay := by
    have hpos := g.month_pos
    have hle := g.month_le
    have hdpos := g.day_pos
    have hdle := g.day_le
    have hsum := sumMonths_spec g.year (m := g.month - 1) (by omega)
    have hbound := (daysBeforeMonth_le (y := g.year) (m := g.month) (by omega)).trans
      (yearLength_le _)
    have hlen := monthLength_le g.year g.month
    rw [Nat.sub_add_cancel hpos] at hsum
    rw [h.month, Int.toNat_natCast]
    simp only [UInt32.toNat_add, UInt32.toNat_sub, hsum, hday, UInt32.reduceToNat, Date.yearDay]
    omega
  have hfirst := daysToYear_spec (ofInt16 date.year) (by rw [hyear]; exact h.first)
    (by rw [hyear]; exact h.last)
  have hnumber := h.dayNumber
  have hyd : g.yearDay < 366 := by
    have hsucc := daysBeforeMonth_succ (y := g.year) g.month_pos
    have hle := g.month_le
    have hdle := g.day_le
    have hbound := (daysBeforeMonth_le (y := g.year) (m := g.month + 1) (by omega)).trans
      (yearLength_le _)
    have hdpos := g.day_pos
    unfold Date.yearDay
    omega
  rw [hyear] at hfirst
  rw [daysBeforeYear_first] at hnumber
  have hlate : ¬date.year.toInt < 1970 := by
    have hle := h.first
    rw [h.year]
    omega
  unfold countSeconds
  simp only
  rw [if_neg hlate, hleap]
  generalize sumMonths (decide (IsLeap g.year)) (date.month.toInt.toNat - 1) +
    (ofInt16 date.day - 1) = yday at *
  have hdays : (daysToYear (ofInt16 date.year) (decide (IsLeap g.year)) + yday).toNat =
      ts.seconds.toNat / 86400 := by
    rw [Date.dayNumber, ← hfirst] at hnumber
    rw [UInt32.toNat_add, hyday]
    omega
  generalize daysToYear (ofInt16 date.year) (decide (IsLeap g.year)) + yday = days at *
  generalize ofInt16 date.hour * 3600 + ofInt16 date.minute * 60 + ofInt16 date.second = time at *
  have hfits : ¬(maximumSecondsInTime - time) / 86400 < days := by
    have hmaximum : maximumSecondsInTime.toNat = 4102444799 := rfl
    rw [UInt32.lt_iff_toNat_lt, UInt32.toNat_div, UInt32.toNat_sub, hmaximum, htime, hdays]
    simp only [UInt32.reduceToNat]
    omega
  have hwday : (toInt16 ((days + 4) % 7)).toInt = g.weekday := by
    have hmod : ((days + 4) % 7).toNat = (ts.seconds.toNat / 86400 + 4) % 7 := by
      simp only [UInt32.toNat_mod, UInt32.toNat_add, hdays, UInt32.reduceToNat]
      omega
    rw [toInt_toInt16 (by omega), hmod, Date.weekday, hnumber, firstDay]
    omega
  have hyday' : (toInt16 yday).toInt = g.yearDay := by
    rw [toInt_toInt16 (by omega), hyday]
  have hseconds : time + days * 86400 = ts.seconds := by
    have hmul : (days * 86400).toNat = ts.seconds.toNat / 86400 * 86400 := by
      simp only [UInt32.toNat_mul, hdays, UInt32.reduceToNat]
      omega
    rw [← UInt32.toNat_inj, UInt32.toNat_add, htime, hmul]
    omega
  have hmilli : ofInt16 date.millisec = ts.milliseconds := UInt32.toNat_inj.mp hms
  rw [if_neg hfits, hseconds, hmilli]
  exact ⟨_, rfl, ⟨h.year, h.month, h.day, h.hour, h.minute, h.second, h.millisec, h.dayNumber,
    h.first, h.last⟩, hwday, hyday'⟩

theorem timeFromDate_spec (ts : TimeStruct) {date : DateStruct} {g : Date}
    (hmax : ts.seconds.toNat ≤ 4102444799) (hms : ts.milliseconds.toNat < 1000)
    (h : CivilOf ts.seconds.toNat ts.milliseconds.toNat date g) :
    ∃ date', timeFromDate date = some (date', some ts) ∧
      DateOf ts.seconds.toNat ts.milliseconds.toNat date' g := by
  have hmillisec := h.millisec
  have hsecond := h.second
  have hminute := h.minute
  have hhour := h.hour
  have hday := h.day
  have hyear := h.year
  have hpos := g.month_pos
  have hle := g.month_le
  have hmonth : (date.month - 1).toInt = g.month - 1 := by
    rw [Int16.toInt_sub, h.month, Int.bmod_eq_of_le_mul_two]
    all_goals simp only [Int16.reduceToInt]
    all_goals omega
  have n₁ : normalize date.millisec 1000 date.second = (true, date.millisec, date.second) :=
    normalize_eq (b := 1000) rfl (by omega) (by omega) (by omega)
  have n₂ : normalize date.second 60 date.minute = (true, date.second, date.minute) :=
    normalize_eq (b := 60) rfl (by omega) (by omega) (by omega)
  have n₃ : normalize date.minute 60 date.hour = (true, date.minute, date.hour) :=
    normalize_eq (b := 60) rfl (by omega) (by omega) (by omega)
  have n₄ : normalize date.hour 24 date.day = (true, date.hour, date.day) :=
    normalize_eq (b := 24) rfl (by omega) (by omega) (by omega)
  have n₅ : normalize (date.month - 1) 12 date.year = (true, date.month - 1, date.year) :=
    normalize_eq (b := 12) rfl (by omega) (by omega) (by omega)
  have hdays : normalizeDays (65535 + 1) date = some date := normalizeDays_eq hyear h.month hday
  simp only [timeFromDate, n₁, n₂, n₃, n₄, n₅, Int16.sub_add_cancel, Bool.not_true,
    Bool.false_eq_true, if_false]
  obtain ⟨date', hcount, hdate⟩ := countSeconds_spec hmax h
  rw [hdays, Option.map_some, hcount]
  exact ⟨date', rfl, hdate⟩

/-! ## Broken-down time -/

/-- `timegm` undoes the shifts of `gmtime_r`. -/
theorem toInt16_shift (x : Int16) (c : Int32) : (x.toInt32 - c + c).toInt16 = x := by
  rw [Int32.sub_add_cancel, Int16.toInt16_toInt32]

/-- The date of the calendar is found for every time up to the end of 2099, and leads back
to the normalised time; so does the broken-down time. -/
theorem calendar_round_trip :
    (∀ ts : TimeStruct,
      ts.seconds.toNat + ts.milliseconds.toNat / 1000 ≤ maximumSecondsInTime.toNat →
      ∃ ts' date g, timeToDate ts = some (ts', date) ∧
        ts'.seconds.toNat = ts.seconds.toNat + ts.milliseconds.toNat / 1000 ∧
        ts'.milliseconds.toNat = ts.milliseconds.toNat % 1000 ∧
        DateOf ts'.seconds.toNat ts'.milliseconds.toNat date g ∧
        timeFromDate date = some (date, some ts')) ∧
    ∀ s : UInt32, s ≤ maximumSecondsInTime →
      ∃ tm, gmtimeR s = some tm ∧ ∀ wday yday, timegm tm wday yday = some s := by
  have hmax : maximumSecondsInTime.toNat = 4102444799 := rfl
  constructor
  · intro ts h
    obtain ⟨ts', date, g, hto, hs, hms, hdate⟩ := timeToDate_spec ts h
    obtain ⟨date', hfrom, hdate'⟩ := timeFromDate_spec ts' (by omega) (by omega)
      hdate.toCivilOf
    rw [hdate'.unique hdate] at hfrom
    exact ⟨ts', date, g, hto, hs, hms, hdate, hfrom⟩
  · intro s h
    have hle := UInt32.le_iff_toNat_le.mp h
    obtain ⟨ts', date, g, hto, hs, hms, hdate⟩ :=
      timeToDate_spec { seconds := s, milliseconds := 0 } (by simpa using hle)
    simp only [UInt32.toNat_zero, Nat.zero_div, Nat.add_zero, Nat.zero_mod] at hs hms
    refine ⟨_, by rw [gmtimeR, hto]; rfl, fun wday yday => ?_⟩
    have hmilli : date.millisec = 0 := by
      rw [← Int16.toInt_inj, hdate.millisec, hms]
      rfl
    have hs' : ts'.seconds = s := UInt32.toNat_inj.mp hs
    have hcivil : CivilOf ts'.seconds.toNat ts'.milliseconds.toNat
        { date with wday := wday, yday := yday } g :=
      ⟨hdate.year, hdate.month, hdate.day, hdate.hour, hdate.minute, hdate.second,
        hdate.millisec, hdate.dayNumber, hdate.first, hdate.last⟩
    obtain ⟨date', hfrom, -⟩ := timeFromDate_spec ts' (by omega) (by omega) hcivil
    simp only [timegm, toInt16_shift, Int16.toInt16_toInt32, ← hmilli]
    rw [hfrom]
    exact congrArg some hs'

/-- The last second before 2100, and the broken-down time of the leap day of 2000. -/
theorem calendar_last_second :
    (∃ ts' date g, timeToDate { seconds := 4102444798, milliseconds := 1500 } = some (ts', date) ∧
      ts'.seconds.toNat = 4102444799 ∧ ts'.milliseconds.toNat = 500 ∧
      DateOf ts'.seconds.toNat ts'.milliseconds.toNat date g ∧
      timeFromDate date = some (date, some ts')) ∧
    ∃ tm, gmtimeR 951825600 = some tm ∧ ∀ wday yday, timegm tm wday yday = some 951825600 :=
  ⟨calendar_round_trip.1 { seconds := 4102444798, milliseconds := 1500 } (by decide),
    calendar_round_trip.2 951825600 (by decide)⟩

end Mqx.Clock
