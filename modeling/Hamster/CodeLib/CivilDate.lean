import Mathlib.Data.Int.Notation

/-!
# Calendar dates

The proleptic Gregorian calendar on day numbers counted from 1970-01-01, over
unbounded integers.  `addDate` is the calendar addition of Go's
`time.Time.AddDate` with no months, on a time in milliseconds: it splits the
time into a civil date and a time of day, adds the years to the year and the
days to the day, and normalises a day that the month does not have into the
following month.

`addDate_zero` is that the date of a time is its own, and `addDate_succ_day` and
`addDate_succ_year` are what one more day or year adds.
-/

namespace Hamster.CodeLib

/-- The day number of day `d` of month `m` of year `y`.  A day past the end
of the month counts on into the next one. -/
def daysFromCivil (y m d : Int) : Int :=
  -- years start in March, so that the leap day is the last day of a year
  let y' := if m ≤ 2 then y - 1 else y
  let era := y' / 400
  let yearOfEra := y' % 400
  let dayOfYear := (153 * (if m > 2 then m - 3 else m + 9) + 2) / 5 + d - 1
  let dayOfEra := yearOfEra * 365 + yearOfEra / 4 - yearOfEra / 100 + dayOfYear
  era * 146097 + dayOfEra - 719468

/-- The year, month and day of a day number. -/
def civilFromDays (z : Int) : Int × Int × Int :=
  let era := (z + 719468) / 146097
  let dayOfEra := (z + 719468) % 146097
  let yearOfEra :=
    (dayOfEra - dayOfEra / 1460 + dayOfEra / 36524 - dayOfEra / 146096) / 365
  let dayOfYear := dayOfEra - (365 * yearOfEra + yearOfEra / 4 - yearOfEra / 100)
  let mp := (5 * dayOfYear + 2) / 153
  let d := dayOfYear - (153 * mp + 2) / 5 + 1
  let m := if mp < 10 then mp + 3 else mp - 9
  (yearOfEra + era * 400 + (if m ≤ 2 then 1 else 0), m, d)

/-- Milliseconds in a day. -/
def dayMillis : Int := 86400000

/-- Add calendar years and days to a time in milliseconds. -/
def addDate (ms years days : Int) : Int :=
  let date := civilFromDays (ms / dayMillis)
  (daysFromCivil (date.1 + years) date.2.1 (date.2.2 + days)) * dayMillis + ms % dayMillis

-- 2024-02-29 plus one year is 2025-03-01
example : addDate 1709164800000 1 0 = 1740787200000 := by decide

/-! ## Adding -/

/-- Whole years have 365 days, and one more for each leap day. -/
theorem daysFromCivil_eq (y m d : Int) :
    daysFromCivil y m d =
      365 * (if m ≤ 2 then y - 1 else y) + (if m ≤ 2 then y - 1 else y) / 4 -
        (if m ≤ 2 then y - 1 else y) / 100 + (if m ≤ 2 then y - 1 else y) / 400 +
        ((153 * (if m > 2 then m - 3 else m + 9) + 2) / 5 + d - 1) - 719468 := by
  unfold daysFromCivil
  dsimp only
  generalize (if m ≤ 2 then y - 1 else y) = y'
  omega

/-- The year of an era has a number below 400, and a day of it one below 366. -/
theorem yearOfEra_bounds {dayOfEra yearOfEra : Int} (hpos : 0 ≤ dayOfEra) (hlt : dayOfEra < 146097)
    (hyear : yearOfEra =
      (dayOfEra - dayOfEra / 1460 + dayOfEra / 36524 - dayOfEra / 146096) / 365) :
    (0 ≤ yearOfEra ∧ yearOfEra < 400) ∧
      0 ≤ dayOfEra - (365 * yearOfEra + yearOfEra / 4 - yearOfEra / 100) ∧
      dayOfEra - (365 * yearOfEra + yearOfEra / 4 - yearOfEra / 100) < 366 := by
  -- with both centuries known what is left is linear
  have hrange : 0 ≤ yearOfEra ∧ yearOfEra < 400 := by omega
  have hcentury : yearOfEra / 100 = 0 ∨ yearOfEra / 100 = 1 ∨ yearOfEra / 100 = 2 ∨
      yearOfEra / 100 = 3 := by omega
  have hdays : dayOfEra / 36524 = 0 ∨ dayOfEra / 36524 = 1 ∨ dayOfEra / 36524 = 2 ∨
      dayOfEra / 36524 = 3 ∨ dayOfEra / 36524 = 4 := by omega
  refine ⟨hrange, ?_, ?_⟩
  · rcases hcentury with h | h | h | h <;> rcases hdays with h' | h' | h' | h' | h' <;> omega
  · rcases hcentury with h | h | h | h <;> rcases hdays with h' | h' | h' | h' | h' <;> omega

/-- The day number of a day of a year that starts in March. -/
theorem daysFromCivil_march {era year month day : Int} (hyear : 0 ≤ year ∧ year < 400)
    (hmonth : 0 ≤ month ∧ month < 12) :
    let m := if month < 10 then month + 3 else month - 9
    daysFromCivil (year + era * 400 + (if m ≤ 2 then 1 else 0)) m
      (day - (153 * month + 2) / 5 + 1) =
      era * 146097 + (365 * year + year / 4 - year / 100 + day) - 719468 := by
  intro m
  rw [daysFromCivil_eq]
  by_cases hlow : month < 10
  · have hm : m = month + 3 := if_pos hlow
    rw [hm, if_neg (by omega), if_neg (by omega), if_pos (by omega)]
    omega
  · have hm : m = month - 9 := if_neg hlow
    rw [hm, if_pos (by omega), if_pos (by omega), if_neg (by omega)]
    omega

/-- The date of a day number is a date of that day. -/
theorem daysFromCivil_civilFromDays (z : Int) :
    daysFromCivil (civilFromDays z).1 (civilFromDays z).2.1 (civilFromDays z).2.2 = z := by
  obtain ⟨hyear, hday⟩ := @yearOfEra_bounds ((z + 719468) % 146097) _ (by omega) (by omega) rfl
  refine (daysFromCivil_march hyear (by omega)).trans ?_
  omega

theorem addDate_zero (ms : Int) : addDate ms 0 0 = ms := by
  unfold addDate
  dsimp only
  rw [Int.add_zero, Int.add_zero, daysFromCivil_civilFromDays]
  exact Int.ediv_mul_add_emod ms dayMillis

theorem addDate_succ_day (ms years days : Int) :
    addDate ms years (days + 1) = addDate ms years days + dayMillis := by
  simp only [addDate, daysFromCivil_eq, dayMillis]
  omega

/-- A year has 365 or 366 days. -/
theorem daysFromCivil_succ_year (y m d : Int) :
    daysFromCivil y m d + 365 ≤ daysFromCivil (y + 1) m d ∧
      daysFromCivil (y + 1) m d ≤ daysFromCivil y m d + 366 := by
  have hnext : (if m ≤ 2 then y + 1 - 1 else y + 1) = (if m ≤ 2 then y - 1 else y) + 1 := by
    split <;> omega
  rw [daysFromCivil_eq, daysFromCivil_eq, hnext]
  omega

theorem addDate_succ_year (ms years days : Int) :
    addDate ms years days + 365 * dayMillis ≤ addDate ms (years + 1) days ∧
      addDate ms (years + 1) days ≤ addDate ms years days + 366 * dayMillis := by
  have hyear := daysFromCivil_succ_year ((civilFromDays (ms / dayMillis)).1 + years)
    (civilFromDays (ms / dayMillis)).2.1 ((civilFromDays (ms / dayMillis)).2.2 + days)
  unfold addDate
  dsimp only
  rw [← Int.add_assoc]
  unfold dayMillis at *
  omega

end Hamster.CodeLib
