import Alertmanager.Calendar
import Alertmanager.StrconvParse

/-!
# Ranges of days, months and years

The ranges of `timeinterval/timeinterval.go`: how they are read from a string, which of
them are refused, and which instants a `TimeInterval` contains. A range of days is checked
against a month of 28 days, whereas its negative days are resolved against the month of
the instant.
-/
namespace Alertmanager

/-- An instant as a clock shows it, to the minute. -/
structure Time where
  date : Date
  hour : ℕ
  minute : ℕ
  hour_lt : hour < 24
  minute_lt : minute < 60

structure TimeRange where
  startMinute : ℤ
  endMinute : ℤ
  deriving DecidableEq

structure InclusiveRange where
  (begin end' : ℤ)
  deriving DecidableEq

/-- The fields that are `nil` are none. A location changes what the clock shows. -/
structure TimeInterval where
  times : Option (List TimeRange) := none
  weekdays : Option (List InclusiveRange) := none
  daysOfMonth : Option (List InclusiveRange) := none
  months : Option (List InclusiveRange) := none
  years : Option (List InclusiveRange) := none
  location : Option (Time → Time) := none

/-- `daysInMonth`: a date with day 0 is the day before the first. -/
def daysInMonth (t : Time) : ℤ := t.date.nextMonth.yesterday.day

theorem daysInMonth_eq (t : Time) : daysInMonth t = daysIn t.date.year t.date.month := by
  rw [daysInMonth, Date.day_yesterday_nextMonth]

theorem daysInMonth_bounds (t : Time) : 28 ≤ daysInMonth t ∧ daysInMonth t ≤ 31 := by
  have := daysIn_bounds t.date.year t.date.month
  rw [daysInMonth_eq]
  omega

def clamp (n min max : ℤ) : ℤ := if n ≤ min then min else if n ≥ max then max else n

namespace TimeRange

def contains (r : TimeRange) (t : Time) : Bool :=
  (t.hour * 60 + t.minute : ℤ) ≥ r.startMinute && (t.hour * 60 + t.minute : ℤ) < r.endMinute

end TimeRange

namespace InclusiveRange

def contains (r : InclusiveRange) (n : ℤ) : Bool := n ≥ r.begin && n ≤ r.end'

/-- One round of the loop over the days of the month. -/
def containsDay (r : InclusiveRange) (t : Time) : Bool :=
  let daysInMonth := daysInMonth t
  let begin := if r.begin < 0 then daysInMonth + r.begin + 1 else r.begin
  let end' := if r.end' < 0 then daysInMonth + r.end' + 1 else r.end'
  if begin > daysInMonth then false
  else
    contains ⟨clamp begin (-1 * daysInMonth) daysInMonth,
      clamp end' (-1 * daysInMonth) daysInMonth⟩ t.date.day

end InclusiveRange

/-- A field of an interval admits everything if it is missing. -/
def admits {α : Type} (field : Option (List α)) (contains : α → Bool) : Bool :=
  match field with
  | none => true
  | some ranges => ranges.any contains

/-- `TimeInterval.ContainsTime`. -/
def TimeInterval.containsTime (tp : TimeInterval) (t : Time) : Bool :=
  let t := match tp.location with
    | none => t
    | some location => location t
  admits tp.times (·.contains t) && admits tp.daysOfMonth (·.containsDay t) &&
    admits tp.months (·.contains t.date.month) && admits tp.weekdays (·.contains t.date.weekday) &&
    admits tp.years (·.contains t.date.year)

/-! ### Refused ranges -/

def monthNames : List String :=
  ["january", "february", "march", "april", "may", "june", "july", "august", "september",
    "october", "november", "december"]

/-- `monthsInv`, empty for a number that is none of a month. -/
def monthName (n : ℤ) : GoString :=
  if n ≤ 0 then [] else str ((monthNames[n.toNat - 1]?).getD "")

/-- Why a range is refused. -/
inductive RangeError
  | format (s : GoString)
  | number (s : GoString) (err : Strconv.NumError)
  | month (s : GoString)
  | outOfRange (day : ℤ)
  | endNotNegative
  | alwaysBefore (r : InclusiveRange)
  | monthBefore (r : InclusiveRange)
  | yearBefore (r : InclusiveRange)
  | weekday (s : GoString)
  | dayOrder
  | dayOutOfRange (s : GoString)
  deriving DecidableEq

def RangeError.text [Unicode] : RangeError → GoString
  | format s => str "couldn't parse range " ++ s ++ str ", invalid format"
  | number s err => Strconv.atoiError s err
  | month s => s ++ str " is not a valid month"
  | outOfRange day => str (toString day) ++ str " is not a valid day of the month: out of range"
  | endNotNegative => str "end day must be negative if start day is negative"
  | alwaysBefore r => str "end day " ++ str (toString r.end') ++
      str " is always before start day " ++ str (toString r.begin)
  | monthBefore r => str "end month " ++ monthName r.end' ++ str " is before start month " ++
      monthName r.begin
  | yearBefore r => str "end year " ++ str (toString r.end') ++ str " is before start year " ++
      str (toString r.begin)
  | weekday s => s ++ str " is not a valid weekday"
  | dayOrder => str "start day cannot be before end day"
  | dayOutOfRange s => s ++ str " is not a valid day of the week: out of range"

/-- A check that refuses a range. -/
def refuse (condition : Prop) [Decidable condition] (err : RangeError) :
    Except RangeError Unit :=
  if condition then .error err else .ok ()

/-- The checks of `DayOfMonthRange.UnmarshalYAML`. -/
def DayOfMonthRange.validate (r : InclusiveRange) : Except RangeError InclusiveRange := do
  refuse (r.begin = 0 ∨ r.begin < -31 ∨ r.begin > 31) (.outOfRange r.begin)
  refuse (r.end' = 0 ∨ r.end' < -31 ∨ r.end' > 31) (.outOfRange r.end')
  refuse (r.begin < 0 ∧ r.end' > 0) .endNotNegative
  let checkBegin := if r.begin < 0 then 28 + r.begin else r.begin
  let checkEnd := if r.end' < 0 then 28 + r.end' else r.end'
  refuse (checkBegin > checkEnd) (.alwaysBefore r)
  pure r

/-- The check of `MonthRange.UnmarshalYAML`. -/
def MonthRange.validate (r : InclusiveRange) : Except RangeError InclusiveRange := do
  refuse (r.begin > r.end') (.monthBefore r)
  pure r

/-- The check of `YearRange.UnmarshalYAML`. -/
def YearRange.validate (r : InclusiveRange) : Except RangeError InclusiveRange := do
  refuse (r.begin > r.end') (.yearBefore r)
  pure r

@[simp] theorem refuse_bind {α : Type} (condition : Prop) [Decidable condition]
    (err : RangeError) (next : Unit → Except RangeError α) :
    (refuse condition err >>= next) = if condition then .error err else next () := by
  unfold refuse
  split_ifs <;> rfl

/-- A range with one check. -/
theorem refuse_eq_ok_iff {condition : Prop} [Decidable condition] {err : RangeError}
    {r : InclusiveRange} :
    (refuse condition err >>= fun _ => pure r) = .ok r ↔ ¬condition := by
  rw [refuse_bind]
  split_ifs with h
  · simp [h]
  · simp [h, pure, Except.pure]

theorem MonthRange.validate_eq_ok_iff {r : InclusiveRange} :
    MonthRange.validate r = .ok r ↔ r.begin ≤ r.end' :=
  refuse_eq_ok_iff.trans not_lt

theorem YearRange.validate_eq_ok_iff {r : InclusiveRange} :
    YearRange.validate r = .ok r ↔ r.begin ≤ r.end' :=
  refuse_eq_ok_iff.trans not_lt

/-- Which days of a month may be written at all. -/
def IsDay (d : ℤ) : Prop := 1 ≤ d ∧ d ≤ 31 ∨ -31 ≤ d ∧ d ≤ -1

/-- A range of days that is written as it should be: not from a day counted from the end
of a month to one counted from its beginning. -/
structure InclusiveRange.Admissible (r : InclusiveRange) : Prop where
  begin_isDay : IsDay r.begin
  end_isDay : IsDay r.end'
  sides : ¬(r.begin < 0 ∧ 0 < r.end')

/-- The end is not before the beginning in a month where the day `-1` is the day `last`. -/
def InclusiveRange.InOrder (r : InclusiveRange) (last : ℤ) : Prop :=
  if 0 < r.begin ∧ r.end' < 0 then r.begin ≤ last + 1 + r.end' else r.begin ≤ r.end'

instance (r : InclusiveRange) (last : ℤ) : Decidable (r.InOrder last) :=
  inferInstanceAs (Decidable
    (if 0 < r.begin ∧ r.end' < 0 then r.begin ≤ last + 1 + r.end' else r.begin ≤ r.end'))

/-- The last check takes the day before the last one of the shortest month for its last. -/
theorem DayOfMonthRange.validate_of_admissible {r : InclusiveRange} (h : r.Admissible) :
    validate r = if r.InOrder 27 then .ok r else .error (.alwaysBefore r) := by
  obtain ⟨hbegin, hend, hsides⟩ := h
  unfold IsDay at hbegin hend
  have hlast : ((if r.begin < 0 then 28 + r.begin else r.begin) >
      if r.end' < 0 then 28 + r.end' else r.end') ↔ ¬r.InOrder 27 := by
    unfold InclusiveRange.InOrder
    split_ifs <;> omega
  simp only [validate, refuse_bind, hlast]
  rw [if_neg (by omega), if_neg (by omega), if_neg hsides, ite_not]
  rfl

theorem DayOfMonthRange.validate_of_not_admissible {r : InclusiveRange} (h : ¬r.Admissible) :
    ∃ err, validate r = .error err ∧ err ≠ .alwaysBefore r := by
  simp only [validate, refuse_bind]
  split_ifs with hbegin hend hsides
  · exact ⟨_, rfl, by simp⟩
  · exact ⟨_, rfl, by simp⟩
  · exact ⟨_, rfl, by simp⟩
  all_goals exact absurd ⟨by unfold IsDay; omega, by unfold IsDay; omega, hsides⟩ h

/-- The day that a number of a range stands for in a month with `n` days. -/
def resolveDay (n d : ℤ) : ℤ := if d < 0 then n + d + 1 else d

/-- Clamping to the month does not matter, since the day is in it. -/
theorem InclusiveRange.containsDay_iff {r : InclusiveRange} {t : Time} :
    r.containsDay t = true ↔ resolveDay (daysInMonth t) r.begin ≤ t.date.day ∧
      t.date.day ≤ resolveDay (daysInMonth t) r.end' := by
  have hday := t.date.day_range
  have hdays := daysInMonth_eq t
  have hresolve : r.containsDay t =
      if resolveDay (daysInMonth t) r.begin > daysInMonth t then false
      else contains ⟨clamp (resolveDay (daysInMonth t) r.begin) (-1 * daysInMonth t)
          (daysInMonth t), clamp (resolveDay (daysInMonth t) r.end') (-1 * daysInMonth t)
          (daysInMonth t)⟩ t.date.day := rfl
  rw [hresolve]
  simp only [contains, clamp]
  split_ifs <;> simp <;> omega

theorem january_month_range : 1 ≤ 1 ∧ 1 ≤ 12 := ⟨Nat.le_refl 1, Nat.le_add_left 1 11⟩

/-- An instant on a day of January. -/
def january (day : ℕ) (h : 1 ≤ day ∧ day ≤ 31) : Time :=
  ⟨⟨2021, 1, day, january_month_range, h⟩, 0, 0, Nat.succ_pos 23, Nat.succ_pos 59⟩

/-- The longest month decides whether a range of days contains an instant. -/
theorem InclusiveRange.Admissible.exists_containsDay_iff {r : InclusiveRange}
    (h : r.Admissible) : (∃ t, r.containsDay t = true) ↔ r.InOrder 31 := by
  obtain ⟨hbegin, hend, hsides⟩ := h
  unfold IsDay at hbegin hend
  simp only [containsDay_iff, resolveDay, InOrder]
  constructor
  · rintro ⟨t, hfirst, hlast⟩
    have hdays := daysInMonth_bounds t
    have hday := t.date.day_range
    split_ifs at hfirst hlast ⊢ <;> omega
  · intro hle
    obtain ⟨day, hday, hrange⟩ : ∃ day : ℕ, (day : ℤ) =
        (if r.begin < 0 then 32 + r.begin else r.begin) ∧ 1 ≤ day ∧ day ≤ 31 := by
      refine ⟨(if r.begin < 0 then 32 + r.begin else r.begin).toNat, ?_, ?_⟩ <;>
        split_ifs <;> omega
    have hdays : daysInMonth (january day hrange) = 31 := daysInMonth_eq _
    have hdate : (january day hrange).date.day = day := rfl
    refine ⟨january day hrange, ?_⟩
    rw [hdays, hdate]
    split_ifs at hle hday ⊢ <;> omega

theorem exists_containsMonth_iff {r : InclusiveRange} :
    (∃ t : Time, r.contains t.date.month = true) ↔
      r.begin ≤ r.end' ∧ r.begin ≤ 12 ∧ 1 ≤ r.end' := by
  simp only [InclusiveRange.contains, ge_iff_le, Bool.and_eq_true, decide_eq_true_eq]
  constructor
  · rintro ⟨t, hfirst, hlast⟩
    have hmonth := t.date.month_range
    omega
  · intro h
    obtain ⟨month, hmonth, hrange⟩ : ∃ month : ℕ, (month : ℤ) = max 1 r.begin ∧
        1 ≤ month ∧ month ≤ 12 :=
      ⟨(max 1 r.begin).toNat, by omega, by omega⟩
    have hday : 1 ≤ 1 ∧ 1 ≤ daysIn 2021 month :=
      ⟨le_rfl, (by decide : 1 ≤ 28).trans (daysIn_bounds 2021 month).1⟩
    refine ⟨⟨⟨2021, month, 1, hrange, hday⟩, 0, 0, by decide, by decide⟩, ?_⟩
    simp only
    omega

theorem exists_containsYear_iff {r : InclusiveRange} :
    (∃ t : Time, r.contains t.date.year = true) ↔ r.begin ≤ r.end' := by
  simp only [InclusiveRange.contains, ge_iff_le, Bool.and_eq_true, decide_eq_true_eq]
  constructor
  · rintro ⟨t, hfirst, hlast⟩
    exact hfirst.trans hlast
  · intro h
    exact ⟨⟨⟨r.begin, 1, 1, by decide, le_rfl, by simp [daysIn]⟩, 0, 0, by decide, by decide⟩,
      le_rfl, h⟩

/-- Intervals of a single range. -/
def ofYears (r : InclusiveRange) : TimeInterval := { years := some [r] }

def ofMonths (r : InclusiveRange) : TimeInterval := { months := some [r] }

def ofDays (r : InclusiveRange) : TimeInterval := { daysOfMonth := some [r] }

@[simp] theorem containsTime_ofYears (r : InclusiveRange) (t : Time) :
    (ofYears r).containsTime t = r.contains t.date.year := by
  simp [TimeInterval.containsTime, ofYears, admits]

@[simp] theorem containsTime_ofMonths (r : InclusiveRange) (t : Time) :
    (ofMonths r).containsTime t = r.contains t.date.month := by
  simp [TimeInterval.containsTime, ofMonths, admits]

@[simp] theorem containsTime_ofDays (r : InclusiveRange) (t : Time) :
    (ofDays r).containsTime t = r.containsDay t := by
  simp [TimeInterval.containsTime, ofDays, admits]

/-- A range of days whose end is before its beginning in some months only, by the count of
the last check. -/
def InclusiveRange.Doubtful (r : InclusiveRange) : Prop :=
  0 < r.begin ∧ r.end' < 0 ∧ 28 + r.end' < r.begin ∧ r.begin ≤ 32 + r.end'

/-! ### Reading a range -/

/-- `unicode.ToLower` beyond ASCII. -/
class UnicodeCase where
  toLower : ℕ → ℕ

abbrev asciiCase : UnicodeCase := ⟨id⟩

section
variable [UnicodeCase]

def lowerRune (r : ℕ) : ℕ :=
  if 65 ≤ r ∧ r ≤ 90 then r + 32 else if r < 128 then r else UnicodeCase.toLower r

/-- `strings.ToLower`. -/
def toLower (s : GoString) : GoString := Utf8.ofRunes ((Utf8.toRunes s).map lowerRune)

/-- `stringableRangeFromString`, for the given `memberFromString`. -/
def stringableRangeFromString (memberFromString : GoString → Except RangeError ℤ)
    (s : GoString) : Except RangeError InclusiveRange :=
  let s := toLower s
  if 58 ∈ s then
    match s.splitOn 58 with
    | [first, second] => do
        let start ← memberFromString first
        let end' ← memberFromString second
        pure ⟨start, end'⟩
    | _ => .error (.format s)
  else do
    let val ← memberFromString s
    pure ⟨val, val⟩

/-- `InclusiveRange.memberFromString`. -/
def InclusiveRange.memberFromString (s : GoString) : Except RangeError ℤ :=
  (Strconv.atoi s).mapError (.number s)

/-- `months`. -/
def monthNumber (s : GoString) : Option ℤ :=
  ((monthNames.map str).findIdx? (· = s)).map fun i => (i + 1 : ℤ)

/-- `MonthRange.memberFromString`. -/
def MonthRange.memberFromString (s : GoString) : Except RangeError ℤ :=
  match monthNumber s with
  | some n => .ok n
  | none => (Strconv.atoi s).mapError fun _ => .month s

/-- `DayOfMonthRange.UnmarshalYAML`. -/
def DayOfMonthRange.unmarshalYAML (s : GoString) : Except RangeError InclusiveRange :=
  (stringableRangeFromString InclusiveRange.memberFromString s).bind DayOfMonthRange.validate

/-- `MonthRange.UnmarshalYAML`. -/
def MonthRange.unmarshalYAML (s : GoString) : Except RangeError InclusiveRange :=
  (stringableRangeFromString MonthRange.memberFromString s).bind MonthRange.validate

/-- `YearRange.UnmarshalYAML`. -/
def YearRange.unmarshalYAML (s : GoString) : Except RangeError InclusiveRange :=
  (stringableRangeFromString InclusiveRange.memberFromString s).bind YearRange.validate

/-- A range of years is accepted if and only if it contains an instant. So is a range of
months that is out of order or has a month in it, and an admissible range of days that is
not doubtful. -/
theorem range_accepted_iff (s : GoString) (r : InclusiveRange) :
    (stringableRangeFromString InclusiveRange.memberFromString s = .ok r →
      (YearRange.unmarshalYAML s = .ok r ↔ ∃ t, (ofYears r).containsTime t = true)) ∧
    (stringableRangeFromString MonthRange.memberFromString s = .ok r →
      r.end' < r.begin ∨ r.begin ≤ 12 ∧ 1 ≤ r.end' →
      (MonthRange.unmarshalYAML s = .ok r ↔ ∃ t, (ofMonths r).containsTime t = true)) ∧
    (stringableRangeFromString InclusiveRange.memberFromString s = .ok r → ¬r.Doubtful →
      (DayOfMonthRange.unmarshalYAML s = .ok r ↔
        r.Admissible ∧ ∃ t, (ofDays r).containsTime t = true) ∧
      (DayOfMonthRange.unmarshalYAML s = .error (.alwaysBefore r) →
        ∀ t, (ofDays r).containsTime t = false)) := by
  simp only [containsTime_ofYears, containsTime_ofMonths, containsTime_ofDays]
  refine ⟨fun hr => ?_, fun hr hmonths => ?_, fun hr hsure => ?_⟩
  · rw [YearRange.unmarshalYAML, hr, exists_containsYear_iff]
    exact YearRange.validate_eq_ok_iff
  · rw [MonthRange.unmarshalYAML, hr, exists_containsMonth_iff]
    refine MonthRange.validate_eq_ok_iff.trans ?_
    omega
  · have hvalidate : DayOfMonthRange.unmarshalYAML s = DayOfMonthRange.validate r := by
      rw [DayOfMonthRange.unmarshalYAML, hr]
      rfl
    rw [hvalidate]
    by_cases hadmissible : r.Admissible
    · -- outside the doubtful ranges the shortest and the longest month agree
      have hagree : r.InOrder 27 ↔ r.InOrder 31 := by
        unfold InclusiveRange.Doubtful at hsure
        unfold InclusiveRange.InOrder
        split_ifs <;> omega
      have hexists := hadmissible.exists_containsDay_iff
      rw [DayOfMonthRange.validate_of_admissible hadmissible]
      by_cases horder : r.InOrder 27
      · rw [if_pos horder]
        exact ⟨iff_of_true rfl ⟨hadmissible, hexists.mpr (hagree.mp horder)⟩, fun h => by cases h⟩
      · have hempty : ¬∃ t, r.containsDay t = true := fun h => horder (hagree.mpr (hexists.mp h))
        rw [if_neg horder]
        refine ⟨iff_of_false (by simp) fun h => hempty h.2, fun _ t => ?_⟩
        exact Bool.eq_false_iff.mpr fun ht => hempty ⟨t, ht⟩
    · obtain ⟨err, herr, hne⟩ := DayOfMonthRange.validate_of_not_admissible hadmissible
      rw [herr]
      exact ⟨iff_of_false (by simp) fun h => hadmissible h.1,
        fun h => absurd (Except.error.inj h) hne⟩

end

section
attribute [local instance] asciiCase

theorem range_accepted_iff_samples :
    (∃ t, (ofYears ⟨2020, 2021⟩).containsTime t = true) ∧
      (∃ t, (ofMonths ⟨3, 12⟩).containsTime t = true) ∧
      ∃ t, (ofDays ⟨1, -7⟩).containsTime t = true := by
  obtain ⟨hyears, -, -⟩ := range_accepted_iff (str "2020:2021") ⟨2020, 2021⟩
  obtain ⟨-, hmonths, -⟩ := range_accepted_iff (str "March:12") ⟨3, 12⟩
  obtain ⟨-, -, hdays⟩ := range_accepted_iff (str "1:-7") ⟨1, -7⟩
  have hclear : ¬(⟨1, -7⟩ : InclusiveRange).Doubtful := by
    unfold InclusiveRange.Doubtful
    decide
  exact ⟨(hyears (by decide +kernel)).mp (by decide +kernel),
    (hmonths (by decide +kernel) (by decide)).mp (by decide +kernel),
    ((hdays (by decide +kernel) hclear).1.mp (by decide +kernel)).2⟩

/-- A range from the end of the month to its beginning is refused, although it contains
the first days of every long month. -/
theorem range_across_month_refused :
    stringableRangeFromString InclusiveRange.memberFromString (str "-31:5") = .ok ⟨-31, 5⟩ ∧
      DayOfMonthRange.unmarshalYAML (str "-31:5") = .error .endNotNegative ∧
      (ofDays ⟨-31, 5⟩).containsTime (january 3 (by decide)) = true := by
  refine ⟨by decide +kernel, by decide +kernel, by decide +kernel⟩

end

end Alertmanager
