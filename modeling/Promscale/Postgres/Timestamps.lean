import Promscale.Lib.Binary64
import Promscale.Postgres

/-!
# Timestamps and intervals

The product of an interval with a `float8`, and the sum of a timestamp and an interval, as
Postgres computes them; timestamps are in microseconds since 2000, and days are those of UTC.
-/
namespace Promscale

open Promscale.Lib Binary64

/-- The cast of a `float8` to an integer. -/
def truncate (q : Rat) : Int := if q < 0 then ⌈q⌉ else ⌊q⌋

/-- The range that timestamps have to be in. -/
def IsTimestamp (t : Int) : Prop := -211813488000000000 ≤ t ∧ t < 9223371331200000000

instance (t : Int) : Decidable (IsTimestamp t) := inferInstanceAs (Decidable (_ ∧ _))

def USECS_PER_DAY : Int := 86400000000

/-- `TSROUND`: a number of days or seconds, rounded to the sixth place. -/
def tsround (x : Binary64) : Binary64 :=
  div (ofRat (roundHalfEven (mul x (ofRat 1000000)).toRat)) (ofRat 1000000)

/-- `interval * float8`; the fractions of months go into days, and those of days into the time. -/
def Interval.mul (span : Interval) (factor : Binary64) : Option Interval :=
  let months := Binary64.mul (ofRat span.months) factor
  let days := Binary64.mul (ofRat span.days) factor
  let month := truncate months.toRat
  let day := truncate days.toRat
  if IsInt32 month ∧ IsInt32 day then
    let monthRemainderDays := tsround (Binary64.mul (sub months (ofRat month)) (ofRat 30))
    let wholeDays := truncate monthRemainderDays.toRat
    let secRemainder := tsround (Binary64.mul
      (sub (add (sub days (ofRat day)) monthRemainderDays) (ofRat wholeDays)) (ofRat 86400))
    let cascaded := truncate (div secRemainder (ofRat 86400)).toRat
    let secRemainder := sub secRemainder (Binary64.mul (ofRat cascaded) (ofRat 86400))
    let micros := roundHalfEven (add (Binary64.mul (ofRat span.micros) factor)
      (Binary64.mul secRemainder (ofRat 1000000))).toRat
    if IsInt64 micros then some ⟨month, day + cascaded + wholeDays, micros⟩ else none
  else none

/-! ## The calendar -/

/-- The Julian day of a date. -/
def date2j (y m d : Int) : Int :=
  let (m, y) := if m > 2 then (m + 1, y + 4800) else (m + 13, y + 4799)
  let century := y.tdiv 100
  y * 365 - 32167 + y.tdiv 4 - century + century.tdiv 4 + (7834 * m).tdiv 256 + d

/-- The date of a Julian day: year, month and day. -/
def j2date (jd : Int) : Int × Int × Int :=
  let julian := jd + 32044
  let quad := julian / 146097
  let extra := (julian - quad * 146097) * 4 + 3
  let julian := julian + 60 + quad * 3 + extra / 146097
  let quad := julian / 1461
  let julian := julian - quad * 1461
  let y := julian * 4 / 1461
  let julian := (if y ≠ 0 then (julian + 305) % 365 else (julian + 306) % 366) + 123
  let year := y + quad * 4 - 4800
  let quad := julian * 2141 / 65536
  (year, (quad + 10) % 12 + 1, julian - 7834 * quad / 256)

def POSTGRES_EPOCH_JDATE : Int := 2451545

def isleap (y : Int) : Bool := y % 4 = 0 && (y % 100 ≠ 0 || y % 400 = 0)

/-- The number of days of a month. -/
def dayTab (y m : Int) : Int :=
  if m = 2 then if isleap y then 29 else 28 else if m ∈ [4, 6, 9, 11] then 30 else 31

/-- The day that is some months later, the last one of a shorter month. -/
def addMonths (months day : Int) : Int :=
  let (year, mon, mday) := j2date (day + POSTGRES_EPOCH_JDATE)
  let year' := year + (mon - 1 + months) / 12
  let mon' := (mon - 1 + months) % 12 + 1
  date2j year' mon' (min mday (dayTab year' mon')) - POSTGRES_EPOCH_JDATE

/-- A month after the last of January comes the last of February. -/
example : addMonths 1 (date2j 2022 1 31 - POSTGRES_EPOCH_JDATE) =
    date2j 2022 2 28 - POSTGRES_EPOCH_JDATE := by
  decide

/-- A timestamp, if it is one. -/
def timestamp (t : Int) : Option Int := if IsTimestamp t then some t else none

/-- `timestamptz + interval`; months are added first, then days, then the time. -/
def timestamptzPlInterval (t : Int) (span : Interval) : Option Int := do
  let t ← timestamp (addMonths span.months (t / USECS_PER_DAY) * USECS_PER_DAY + t % USECS_PER_DAY)
  let t ← timestamp (t + span.days * USECS_PER_DAY)
  timestamp (t + span.micros)

/-- There is no timestamp 300000 years after the beginning of 2023. -/
example : timestamptzPlInterval 725846400000000 ⟨3600000, 0, 0⟩ = none := by
  decide

end Promscale
