import CryptoCollector.Time

/-!
# Calendar dates

A `NaiveDate` is its number of days since 1970-01-01. The sessions of the
program run in UTC, so the day of a stored instant is its UTC day.
-/

namespace CryptoCollector.NaiveDate
open DateTime

/-- `NaiveDate::from_ymd_opt` at a date that exists: years are counted from
March, 146097 days to the era of 400 years. -/
def fromYmd (year month day : ℤ) : ℤ :=
  let y := if month ≤ 2 then year - 1 else year
  let era := y / 400
  let yearOfEra := y - era * 400
  let dayOfYear := (153 * (if month ≤ 2 then month + 9 else month - 3) + 2) / 5 + day - 1
  let dayOfEra := yearOfEra * 365 + yearOfEra / 4 - yearOfEra / 100 + dayOfYear
  era * 146097 + dayOfEra - 719468

example : fromYmd 1970 1 1 = 0 ∧ fromYmd 2000 2 29 = 11016 := by decide

/-- `ts::date`. -/
def ofTimestamptz (ts : ℤ) : ℤ := timestamp ts / 86400

end CryptoCollector.NaiveDate
