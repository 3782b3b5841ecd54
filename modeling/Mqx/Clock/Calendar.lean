import Mqx.Library.Gregorian

/-!
# Seconds and dates

`timeToDate` splits a number of seconds since 1 January 1970 into a date, counting years
in blocks of four; `timeFromDate` normalises the fields of a date and counts the days back
with the leap rule of the century. The two agree up to the end of the year 2099, the last
year before a century that is no leap year.
-/

namespace Mqx.Clock

/-- `TIME_STRUCT`. -/
structure TimeStruct where
  seconds : UInt32
  milliseconds : UInt32
deriving DecidableEq

/-- `DATE_STRUCT`. -/
structure DateStruct where
  year : Int16
  month : Int16
  day : Int16
  hour : Int16
  minute : Int16
  second : Int16
  millisec : Int16
  wday : Int16
  yday : Int16
deriving DecidableEq

/-- The calendar fields of `struct tm`. -/
structure Tm where
  sec : Int32
  min : Int32
  hour : Int32
  mday : Int32
  mon : Int32
  year : Int32
  wday : Int32
  yday : Int32
deriving DecidableEq

def clkFirstYear : UInt32 := 1970

def maximumSecondsInTime : UInt32 := 4102444799

def numLeapYearSinceFirstYear : UInt32 :=
  clkFirstYear / 4 - clkFirstYear / 100 + clkFirstYear / 400

/-- The conversion of a `uint32_t` to `int16_t`. -/
def toInt16 (x : UInt32) : Int16 := x.toUInt16.toInt16

/-- The conversion of an `int16_t` to `uint32_t`, which extends the sign. -/
def ofInt16 (x : Int16) : UInt32 := x.toInt32.toUInt32

def timeCheckIfLeap (year : UInt16) : Bool :=
  if year % 100 = 0 then
    if year % 400 = 0 then true else false
  else
    if year % 4 = 0 then true else false

/-- `_time_days_in_month_internal[leap][month]`. -/
def timeDaysInMonthInternal (leap : Bool) (month : Int16) : UInt16 :=
  (if leap then [0, 31, 29, 31, 30, 31, 30, 31, 31, 30, 31, 30, 31]
    else [0, 31, 28, 31, 30, 31, 30, 31, 31, 30, 31, 30, 31]).getD month.toInt.toNat 0

/-! ## From seconds to a date -/

/-- The loop over the months, from `month` with `day` days left. There is no thirteenth
month in the table: the loop has to end before. -/
def monthLoop (leap : Bool) : ℕ → UInt32 → Int16 → Option (UInt32 × Int16)
  | 0, _, _ => none
  | fuel + 1, day, month =>
    if day ≥ (timeDaysInMonthInternal leap month).toUInt32 then
      monthLoop leap fuel (day - (timeDaysInMonthInternal leap month).toUInt32) (month + 1)
    else some (day, month)

/-- The hour, the minute and the second of a time of the day. -/
def splitDay (time : UInt32) : Int16 × Int16 × Int16 :=
  let hour := toInt16 (time / 3600)
  let time := time - ofInt16 hour * 3600
  let minute := toInt16 (time / 60)
  let time := time - ofInt16 minute * 60
  (hour, minute, toInt16 time)

/-- The year, counted from 1969 in blocks of four, and the day of the year. -/
def splitYear (day : UInt32) : UInt32 × UInt32 :=
  let day := day + 365
  let year := 4 * (day / 1461)
  let day := day - year * 1461 / 4
  let tmp := if day / 365 = 4 then 3 else day / 365
  (year + tmp + clkFirstYear - 1, day - tmp * 365)

/-- `_time_to_date`: the normalised time and the date, or `none` for `FALSE`. -/
def timeToDate (ts : TimeStruct) : Option (TimeStruct × DateStruct) :=
  if maximumSecondsInTime - ts.milliseconds / 1000 < ts.seconds then none
  else
    let ts : TimeStruct :=
      { seconds := ts.seconds + ts.milliseconds / 1000, milliseconds := ts.milliseconds % 1000 }
    let day := ts.seconds / 86400
    let time := ts.seconds - day * 86400
    let year := toInt16 (splitYear day).1
    (monthLoop (timeCheckIfLeap year.toUInt16) 12 (splitYear day).2 1).map fun r =>
      (ts,
        { year := year
          month := r.2
          day := toInt16 r.1 + 1
          hour := (splitDay time).1
          minute := (splitDay time).2.1
          second := (splitDay time).2.2
          millisec := toInt16 ts.milliseconds
          wday := toInt16 ((day + 4) % 7)
          yday := toInt16 (splitYear day).2 })

/-! ## From a date to seconds -/

/-- `normalize`: the value and the next higher field, with a flag that is `false` when the
higher field would overflow. -/
def normalize (value boundary high : Int16) : Bool × Int16 × Int16 :=
  let tmp := value / boundary
  let rest := value - tmp * boundary
  let value := if rest < 0 then rest + boundary else rest
  let tmp := if rest < 0 then tmp - 1 else tmp
  if tmp < 0 then
    if high < 0 ∧ tmp.toInt < 0x1000 - high.toInt then (false, value, high)
    else (true, value, high + tmp)
  else
    if high > 0 ∧ tmp.toInt > 0x7FFF - high.toInt then (false, value, high)
    else (true, value, high + tmp)

/-- The loop that brings the day into its month. The test `DAY < 1U` compares unsigned
numbers, so that only the day 0 goes back a month. -/
def normalizeDays : ℕ → DateStruct → Option DateStruct
  | 0, _ => none
  | fuel + 1, date =>
    let days := timeDaysInMonthInternal (timeCheckIfLeap date.year.toUInt16) date.month
    if date.day.toInt > days.toNat then
      normalizeDays fuel (wrapMonth { date with
        day := date.day - days.toInt16, month := date.month + 1 })
    else if ofInt16 date.day < 1 then
      normalizeDays fuel (wrapMonth { date with
        day := date.day + days.toInt16, month := date.month - 1 })
    else some date
where
  wrapMonth (date : DateStruct) : DateStruct :=
    if date.month = 13 then { date with month := 1, year := date.year + 1 }
    else if date.month = 0 then { date with month := 12, year := date.year - 1 }
    else date

/-- `while (--month > 0) yday += days[month]`, from the month `month + 1`. -/
def sumMonths (leap : Bool) : ℕ → UInt32
  | 0 => 0
  | month + 1 =>
    (timeDaysInMonthInternal leap (Int16.ofNat (month + 1))).toUInt32 + sumMonths leap month

/-- The days from 1 January 1970 to 1 January of a year. -/
def daysToYear (year : UInt32) (leap : Bool) : UInt32 :=
  let day := (year - clkFirstYear) * 365
  let day := day + (year / 4 - year / 100 + year / 400 - numLeapYearSinceFirstYear)
  if leap then day - 1 else day

/-- The end of `_time_from_date`, on a date with all fields in range. -/
def countSeconds (date : DateStruct) : DateStruct × Option TimeStruct :=
  if date.year.toInt < 1970 then (date, none)
  else
    let leap := timeCheckIfLeap date.year.toUInt16
    let yday := sumMonths leap (date.month.toInt.toNat - 1) + (ofInt16 date.day - 1)
    let day := daysToYear (ofInt16 date.year) leap + yday
    let time := ofInt16 date.hour * 3600 + ofInt16 date.minute * 60 + ofInt16 date.second
    if (maximumSecondsInTime - time) / 86400 < day then (date, none)
    else
      ({ date with wday := toInt16 ((day + 4) % 7), yday := toInt16 yday },
        some { seconds := time + day * 86400, milliseconds := ofInt16 date.millisec })

/-- `_time_from_date`: the date as it is left behind and the time, or `none` for `FALSE`.
The outer `none` would be a loop over the days that has not ended. -/
def timeFromDate (date : DateStruct) : Option (DateStruct × Option TimeStruct) :=
  let r := normalize date.millisec 1000 date.second
  let date := { date with millisec := r.2.1, second := r.2.2 }
  if !r.1 then some (date, none) else
  let r := normalize date.second 60 date.minute
  let date := { date with second := r.2.1, minute := r.2.2 }
  if !r.1 then some (date, none) else
  let r := normalize date.minute 60 date.hour
  let date := { date with minute := r.2.1, hour := r.2.2 }
  if !r.1 then some (date, none) else
  let r := normalize date.hour 24 date.day
  let date := { date with hour := r.2.1, day := r.2.2 }
  if !r.1 then some (date, none) else
  let r := normalize (date.month - 1) 12 date.year
  if !r.1 then some ({ date with month := r.2.1, year := r.2.2 }, none) else
  let date := { date with month := r.2.1 + 1, year := r.2.2 }
  (normalizeDays 65536 date).map countSeconds

/-! ## The library functions -/

/-- `gmtime_r`. -/
def gmtimeR (timep : UInt32) : Option Tm :=
  (timeToDate { seconds := timep, milliseconds := 0 }).map fun r =>
    { sec := r.2.second.toInt32
      min := r.2.minute.toInt32
      hour := r.2.hour.toInt32
      mday := r.2.day.toInt32 - 1
      mon := r.2.month.toInt32 - 1
      year := r.2.year.toInt32 - 1900
      wday := r.2.wday.toInt32
      yday := r.2.yday.toInt32 }

/-- `timegm`, which starts from a date whose weekday and day of the year hold no value. -/
def timegm (tm : Tm) (wday yday : Int16) : Option UInt32 :=
  (timeFromDate
    { year := (tm.year + 1900).toInt16
      month := (tm.mon + 1).toInt16
      day := (tm.mday + 1).toInt16
      hour := tm.hour.toInt16
      minute := tm.min.toInt16
      second := tm.sec.toInt16
      millisec := 0
      wday := wday
      yday := yday }).map fun r =>
    match r.2 with
    | none => 0
    | some ts => ts.seconds

end Mqx.Clock
