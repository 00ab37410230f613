import Mathlib.Algebra.Order.Ring.Int

/-!
# The Gregorian calendar

Dates of the proleptic Gregorian calendar, in any year. A date carries the proof that its
month exists and has such a day. The step to the day before is what a date with day 0 is
normalized to.
-/
namespace Alertmanager

def isLeap (year : ℤ) : Bool := year % 4 = 0 && (year % 100 ≠ 0 || year % 400 = 0)

/-- The number of days of a month. -/
def daysIn (year : ℤ) : ℕ → ℕ
  | 2 => if isLeap year then 29 else 28
  | 4 | 6 | 9 | 11 => 30
  | _ => 31

theorem daysIn_bounds (year : ℤ) (month : ℕ) :
    28 ≤ daysIn year month ∧ daysIn year month ≤ 31 := by
  unfold daysIn
  split
  · split_ifs <;> omega
  all_goals omega

structure Date where
  year : ℤ
  month : ℕ
  day : ℕ
  month_range : 1 ≤ month ∧ month ≤ 12
  day_range : 1 ≤ day ∧ day ≤ daysIn year month

namespace Date

/-- The first day of the next month. -/
def nextMonth (d : Date) : Date :=
  if h : d.month = 12 then ⟨d.year + 1, 1, 1, by decide, le_rfl, by simp [daysIn]⟩
  else
    have hmonth := d.month_range
    ⟨d.year, d.month + 1, 1, by omega, le_rfl, (by decide : 1 ≤ 28).trans (daysIn_bounds _ _).1⟩

/-- The day before. -/
def yesterday (d : Date) : Date :=
  have hmonth := d.month_range
  have hday := d.day_range
  if h : 1 < d.day then ⟨d.year, d.month, d.day - 1, hmonth, by omega⟩
  else if h : 1 < d.month then
    ⟨d.year, d.month - 1, daysIn d.year (d.month - 1), by omega,
      (by decide : 1 ≤ 28).trans (daysIn_bounds _ _).1, le_rfl⟩
  else ⟨d.year - 1, 12, 31, by decide, by decide, by simp [daysIn]⟩

/-- The day after. -/
def tomorrow (d : Date) : Date :=
  if h : d.day < daysIn d.year d.month then
    ⟨d.year, d.month, d.day + 1, d.month_range, Nat.le_add_left 1 _, h⟩
  else d.nextMonth

/-- The date some days after the first of January 1970, or before it. -/
def ofEpoch (n : ℤ) : Date :=
  let epoch : Date := ⟨1970, 1, 1, by decide, by decide⟩
  if 0 ≤ n then tomorrow^[n.toNat] epoch else yesterday^[(-n).toNat] epoch

/-- The day before the first of the next month is the last one of the month. -/
theorem day_yesterday_nextMonth (d : Date) :
    d.nextMonth.yesterday.day = daysIn d.year d.month := by
  unfold nextMonth
  split
  case isTrue h => simp [yesterday, h, daysIn]
  case isFalse h =>
    have hmonth : 1 < d.month + 1 := by
      have := d.month_range
      omega
    simp [yesterday, hmonth]

/-- The days since the first day of the year 1, which was a Monday. -/
def number (d : Date) : ℤ :=
  let y := d.year - 1
  365 * y + y / 4 - y / 100 + y / 400 +
    ((List.range' 1 (d.month - 1)).map (daysIn d.year)).sum + (d.day - 1)

/-- The day of the week, from Sunday. -/
def weekday (d : Date) : ℤ := (d.number + 1) % 7

example : (Date.mk 2000 1 1 (by decide) (by decide)).weekday = 6 := by decide

end Date

end Alertmanager
