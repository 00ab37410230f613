import Alertmanager.Decimal
import Alertmanager.TimeRanges
import Alertmanager.YamlFields
import Mathlib.Computability.RegularExpressions

/-!
# Time intervals in YAML

How `timeinterval/timeinterval.go` reads intervals from YAML and writes them. Each range
that is read is written in a form that is read as the same range. A list that is empty is
left out, since its field is tagged `omitempty`, and is missing when the interval is read
again. `ContainsTime` tells the two apart: an empty list admits no instant, a missing one
admits all.
-/
namespace Alertmanager

/-! ### Days of the week -/

def weekdayNames : List String :=
  ["sunday", "monday", "tuesday", "wednesday", "thursday", "friday", "saturday"]

/-- `daysOfWeek`. -/
def weekdayNumber (s : GoString) : Option ℤ :=
  ((weekdayNames.map str).findIdx? (· = s)).map fun i : ℕ => (i : ℤ)

/-- `daysOfWeekInv`. -/
def weekdayName (n : ℤ) : Option GoString :=
  if n < 0 then none else (weekdayNames[n.toNat]?).map str

/-- Why an interval cannot be written. -/
inductive MarshalError
  | weekday (n : ℤ)
  deriving DecidableEq

def MarshalError.text : MarshalError → GoString
  | weekday n => str "unable to convert " ++ Strconv.itoa n ++ str " into weekday string"

namespace WeekdayRange

/-- `WeekdayRange.memberFromString`. -/
def memberFromString (s : GoString) : Except RangeError ℤ :=
  match weekdayNumber s with
  | some n => .ok n
  | none => .error (.weekday s)

/-- The checks of `WeekdayRange.UnmarshalYAML`. -/
def validate (s : GoString) (r : InclusiveRange) : Except RangeError InclusiveRange := do
  refuse (r.begin > r.end') .dayOrder
  refuse (r.begin < 0 ∨ r.begin > 6) (.dayOutOfRange s)
  refuse (r.end' < 0 ∨ r.end' > 6) (.dayOutOfRange s)
  pure r

/-- `WeekdayRange.UnmarshalYAML`. -/
def unmarshalYAML [UnicodeCase] (s : GoString) : Except RangeError InclusiveRange :=
  (stringableRangeFromString memberFromString s).bind (validate s)

/-- `WeekdayRange.MarshalText`. -/
def marshalText (r : InclusiveRange) : Except MarshalError GoString :=
  match weekdayName r.begin with
  | none => .error (.weekday r.begin)
  | some beginStr =>
    if r.begin = r.end' then .ok beginStr
    else match weekdayName r.end' with
      | none => .error (.weekday r.end')
      | some endStr => .ok (beginStr ++ 58 :: endStr)

end WeekdayRange

/-- `InclusiveRange.MarshalText`. -/
def InclusiveRange.marshalText (r : InclusiveRange) : Except MarshalError GoString :=
  if r.begin = r.end' then .ok (Strconv.itoa r.begin)
  else .ok (Strconv.itoa r.begin ++ 58 :: Strconv.itoa r.end')

/-! ### Times of the day -/

/-- The class of the digits from 0 to the given one. -/
def digitUpTo (k : ℕ) : RegularExpression UInt8 :=
  ((List.range (k + 1)).map fun d => .char (.ofNat (48 + d))).sum

/-- `([01][0-9])|(2[0-3])`. -/
def hoursRE : RegularExpression UInt8 := digitUpTo 1 * digitUpTo 9 + .char 50 * digitUpTo 3

/-- `[0-5][0-9]`. -/
def minutesRE : RegularExpression UInt8 := digitUpTo 5 * digitUpTo 9

/-- `24:00`. -/
def endOfDayRE : RegularExpression UInt8 :=
  .char 50 * (.char 52 * (.char 58 * (.char 48 * .char 48)))

/-- `validTimeRE`, both sides of which are anchored. -/
def validTimeRE : RegularExpression UInt8 := hoursRE * (.char 58 * minutesRE) + endOfDayRE

/-- Why a range of times is refused. -/
inductive TimeError
  | missing
  | format (s : GoString)
  | components (s : GoString)
  | number (s : GoString) (err : Strconv.NumError)
  | outOfRange (s : GoString)
  | order
  deriving DecidableEq

def TimeError.text [Unicode] : TimeError → GoString
  | missing => str "both start and end times must be provided"
  | format s => str "couldn't parse timestamp " ++ s ++ str ", invalid format"
  | components s => str "invalid timestamp format: " ++ s
  | number s err => Strconv.atoiError s err
  | outOfRange s => str "timestamp " ++ s ++ str " out of range"
  | order => str "start time cannot be equal or greater than end time"

/-- `parseTime`. -/
def parseTime (s : GoString) : Except TimeError ℤ :=
  if ¬validTimeRE.rmatch s then .error (.format s)
  else match s.splitOn 58 with
    | [hours, minutes] => do
        let timeStampHours ← (Strconv.atoi hours).mapError (.number hours)
        let timeStampMinutes ← (Strconv.atoi minutes).mapError (.number minutes)
        if timeStampHours < 0 ∨ timeStampHours > 24 ∨ timeStampMinutes < 0 ∨
            timeStampMinutes > 60 then .error (.outOfRange s)
        else pure (timeStampHours * 60 + timeStampMinutes)
    | _ => .error (.components s)

/-- `yamlTimeRange`. A field that is missing is empty. -/
structure YamlTimeRange where
  startTime : GoString
  endTime : GoString
  deriving DecidableEq

/-- `fmt.Sprintf("%02d", n)`. -/
def pad2 (n : ℤ) : GoString :=
  if 0 ≤ n ∧ n < 10 then 48 :: Strconv.itoa n else Strconv.itoa n

namespace TimeRange

/-- `TimeRange.UnmarshalYAML`. -/
def unmarshalYAML (y : YamlTimeRange) : Except TimeError TimeRange :=
  if y.endTime = [] ∨ y.startTime = [] then .error .missing
  else do
    let start ← parseTime y.startTime
    let end' ← parseTime y.endTime
    if start ≥ end' then .error .order else pure ⟨start, end'⟩

/-- `TimeRange.MarshalYAML`. -/
def marshalYAML (r : TimeRange) : Except MarshalError YamlTimeRange :=
  .ok ⟨pad2 (r.startMinute.tdiv 60) ++ 58 :: pad2 (r.startMinute.tmod 60),
    pad2 (r.endMinute.tdiv 60) ++ 58 :: pad2 (r.endMinute.tmod 60)⟩

end TimeRange

/-! ### Locations -/

/-- A `time.Location`: its name, and what a clock there shows at an instant, which is given
in nanoseconds. -/
structure Location where
  name : GoString
  clock : ℤ → Time

/-- The time zones that `time.LoadLocation` knows, and the error for those it does not. -/
class TimeZones where
  utc : ℤ → Time
  localClock : ℤ → Time
  zone : GoString → Except GoString (ℤ → Time)

section
variable [TimeZones]

/-- `time.LoadLocation`. -/
def loadLocation (name : GoString) : Except GoString Location :=
  if name = [] ∨ name = str "UTC" then .ok ⟨str "UTC", TimeZones.utc⟩
  else if name = str "Local" then .ok ⟨str "Local", TimeZones.localClock⟩
  else (fun clock => ⟨name, clock⟩) <$> TimeZones.zone name

theorem loadLocation_name {s : GoString} {l : Location} (h : loadLocation s = .ok l) :
    loadLocation l.name = .ok l := by
  rw [loadLocation] at h
  split_ifs at h with hutc hlocal
  · obtain rfl := Except.ok.inj h
    exact if_pos (.inr rfl)
  · subst hlocal
    obtain rfl := Except.ok.inj h
    rw [loadLocation, if_neg hutc, if_pos rfl]
  · obtain ⟨clock, hclock, rfl⟩ := map_eq_ok.mp h
    rw [loadLocation, if_neg hutc, if_neg hlocal, hclock]
    rfl

end

/-! ### Intervals -/

/-- An instant, with what the clock of its own location shows. -/
structure Instant where
  unixNano : ℤ
  shown : Time

/-- `TimeInterval`, with the location that it names. -/
structure LocatedInterval where
  times : Option (List TimeRange)
  weekdays : Option (List InclusiveRange)
  daysOfMonth : Option (List InclusiveRange)
  months : Option (List InclusiveRange)
  years : Option (List InclusiveRange)
  location : Option Location

/-- The YAML of an interval, with the fields that are there. -/
structure YamlInterval where
  times : Option (List YamlTimeRange) := none
  weekdays : Option (List GoString) := none
  daysOfMonth : Option (List GoString) := none
  months : Option (List GoString) := none
  years : Option (List GoString) := none
  location : Option GoString := none

/-- Why an interval is refused. -/
inductive IntervalError
  | time (err : TimeError)
  | range (err : RangeError)
  | location (err : GoString)
  deriving DecidableEq

/-- `Location.UnmarshalYAML`, of a location that may be missing. -/
def unmarshalLocation [TimeZones] : Option GoString → Except IntervalError (Option Location)
  | none => .ok none
  | some name => some <$> (loadLocation name).mapError .location

namespace LocatedInterval

/-- `TimeInterval.ContainsTime`: the location shows the time of the instant. -/
def containsTime (tp : LocatedInterval) (t : Instant) : Bool :=
  TimeInterval.containsTime
    { times := tp.times
      weekdays := tp.weekdays
      daysOfMonth := tp.daysOfMonth
      months := tp.months
      years := tp.years
      location := tp.location.map fun l _ => l.clock t.unixNano } t.shown

/-- The interval that a document has. -/
def unmarshalYAML [UnicodeCase] [TimeZones] (y : YamlInterval) :
    Except IntervalError LocatedInterval := do
  let times ← decodeField TimeRange.unmarshalYAML IntervalError.time y.times
  let weekdays ← decodeField WeekdayRange.unmarshalYAML IntervalError.range y.weekdays
  let daysOfMonth ← decodeField DayOfMonthRange.unmarshalYAML IntervalError.range y.daysOfMonth
  let months ← decodeField MonthRange.unmarshalYAML IntervalError.range y.months
  let years ← decodeField YearRange.unmarshalYAML IntervalError.range y.years
  let location ← unmarshalLocation y.location
  pure { times, weekdays, daysOfMonth, months, years, location }

/-- The document that an interval is written as. -/
def marshalYAML (tp : LocatedInterval) : Except MarshalError YamlInterval := do
  let times ← mapField TimeRange.marshalYAML (omitEmpty tp.times)
  let weekdays ← mapField WeekdayRange.marshalText (omitEmpty tp.weekdays)
  let daysOfMonth ← mapField InclusiveRange.marshalText (omitEmpty tp.daysOfMonth)
  let months ← mapField InclusiveRange.marshalText (omitEmpty tp.months)
  let years ← mapField InclusiveRange.marshalText (omitEmpty tp.years)
  pure { times, weekdays, daysOfMonth, months, years, location := tp.location.map (·.name) }

end LocatedInterval

/-! ### Ranges are read back -/

/-- A text that `strings.ToLower` keeps. -/
def Lower (s : GoString) : Prop := ∀ b ∈ s, b.toNat < 128 ∧ ¬(65 ≤ b.toNat ∧ b.toNat ≤ 90)

instance (s : GoString) : Decidable (Lower s) :=
  List.decidableBAll (fun b : UInt8 => b.toNat < 128 ∧ ¬(65 ≤ b.toNat ∧ b.toNat ≤ 90)) s

theorem lower_itoa (n : ℤ) : Lower (Strconv.itoa n) := by
  intro b hb
  obtain rfl | hdigit := Strconv.mem_itoa hb
  · decide
  · omega

theorem colon_not_mem_itoa (n : ℤ) : 58 ∉ Strconv.itoa n := by
  intro h
  obtain h | hdigit := Strconv.mem_itoa h
  · exact absurd h (by decide)
  · exact absurd hdigit (by decide)

theorem InclusiveRange.memberFromString_itoa {s : GoString} {n : ℤ}
    (h : memberFromString s = .ok n) : memberFromString (Strconv.itoa n) = .ok n := by
  rw [memberFromString, mapError_eq_ok] at h ⊢
  exact Strconv.atoi_itoa (Strconv.atoi_bounds h)

theorem monthNumber_eq (s : GoString) : monthNumber s =
    ((monthNames.map str).findIdx? (· = s)).map fun i : ℕ => (i + 1 : ℤ) := by
  rw [monthNumber]
  cases (monthNames.map str).findIdx? (· = s) <;> rfl

theorem monthNumber_itoa (n : ℤ) : monthNumber (Strconv.itoa n) = none := by
  have hnames : ∀ name ∈ monthNames.map str, (name.any fun b => 57 < b.toNat) = true := by
    decide +kernel
  rw [monthNumber_eq, Option.map_eq_none_iff, List.findIdx?_eq_none_iff]
  intro name hname
  obtain ⟨b, hb, hlarge⟩ : ∃ b ∈ name, 57 < b.toNat := by simpa using hnames name hname
  rw [decide_eq_false_iff_not]
  rintro rfl
  obtain rfl | hdigit := Strconv.mem_itoa hb
  · exact absurd hlarge (by decide)
  · omega

theorem monthNumber_bounds {s : GoString} {n : ℤ} (h : monthNumber s = some n) :
    1 ≤ n ∧ n ≤ 12 := by
  rw [monthNumber_eq] at h
  obtain ⟨i, hi, rfl⟩ := Option.map_eq_some_iff.mp h
  obtain ⟨hlt, -⟩ := List.findIdx?_eq_some_iff_getElem.mp hi
  simp [monthNames] at hlt
  omega

theorem MonthRange.memberFromString_itoa {s : GoString} {n : ℤ}
    (h : memberFromString s = .ok n) : memberFromString (Strconv.itoa n) = .ok n := by
  have hbounds : -2 ^ 63 ≤ n ∧ n < 2 ^ 63 := by
    rw [memberFromString] at h
    split at h
    · rename_i m hm
      obtain rfl := Except.ok.inj h
      have := monthNumber_bounds hm
      omega
    · exact Strconv.atoi_bounds (mapError_eq_ok.mp h)
  rw [memberFromString, monthNumber_itoa]
  exact mapError_eq_ok.mpr (Strconv.atoi_itoa hbounds)

theorem refuse_pure_eq_ok {condition : Prop} [Decidable condition] {err : RangeError}
    {r r' : InclusiveRange} (h : (refuse condition err >>= fun _ => pure r) = .ok r') : r' = r := by
  obtain ⟨-, -, h⟩ := bind_eq_ok.mp h
  exact (Except.ok.inj h).symm

theorem WeekdayRange.validate_eq_ok {s : GoString} {r r' : InclusiveRange}
    (h : validate s r = .ok r') :
    r' = r ∧ 0 ≤ r.begin ∧ r.begin ≤ r.end' ∧ r.end' ≤ 6 ∧ ∀ s', validate s' r = .ok r := by
  simp only [validate, refuse_bind] at h ⊢
  split_ifs at h with horder hbegin hend
  obtain rfl := Except.ok.inj h
  refine ⟨rfl, by omega, by omega, by omega, fun s' => ?_⟩
  rw [if_neg horder, if_neg hbegin, if_neg hend]
  rfl

theorem exists_weekdayName {n : ℤ} (h : 0 ≤ n ∧ n ≤ 6) :
    ∃ name, weekdayName n = some name ∧ WeekdayRange.memberFromString name = .ok n ∧
      Lower name ∧ 58 ∉ name := by
  have hall : ∀ i : Fin 7, WeekdayRange.memberFromString (str weekdayNames[i]) = .ok (i : ℤ) ∧
      Lower (str weekdayNames[i]) ∧ 58 ∉ str weekdayNames[i] := by
    decide +kernel
  obtain ⟨i, rfl⟩ : ∃ i : Fin 7, n = (i : ℤ) := ⟨⟨n.toNat, by omega⟩, by simp; omega⟩
  refine ⟨str weekdayNames[i], ?_, hall i⟩
  rw [weekdayName, if_neg (by omega), Int.toNat_natCast, List.getElem?_eq_getElem i.isLt]
  rfl

section
variable [UnicodeCase]

theorem toLower_eq {s : GoString} (h : Lower s) : toLower s = s := by
  have hascii : ∀ b ∈ s, b.toNat < 0x80 := fun b hb => (h b hb).1
  have hrunes : Utf8.toRunes s = s.map (·.toNat) := by
    rw [Utf8.toRunes, Utf8.runes_ascii hascii, List.map_map]
    exact List.map_congr_left fun b hb => Utf8.pieceRune_ascii (hascii b hb)
  have hlower : (Utf8.toRunes s).map lowerRune = Utf8.toRunes s := by
    rw [hrunes, List.map_map]
    refine List.map_congr_left fun b hb => ?_
    obtain ⟨hlt, hupper⟩ := h b hb
    rw [Function.comp_apply, lowerRune, if_neg hupper, if_pos hlt]
  rw [toLower, hlower, Utf8.ofRunes_toRunes (Utf8.validString_of_ascii hascii)]

theorem exists_members {memberFromString : GoString → Except RangeError ℤ} {s : GoString}
    {r : InclusiveRange} (h : stringableRangeFromString memberFromString s = .ok r) :
    (∃ first, memberFromString first = .ok r.begin) ∧
      ∃ second, memberFromString second = .ok r.end' := by
  simp only [stringableRangeFromString] at h
  split_ifs at h
  · split at h
    · rename_i first second _
      obtain ⟨start, hstart, h⟩ := bind_eq_ok.mp h
      obtain ⟨end', hend, h⟩ := bind_eq_ok.mp h
      obtain rfl := Except.ok.inj h
      exact ⟨⟨first, hstart⟩, second, hend⟩
    · cases h
  · obtain ⟨val, hval, h⟩ := bind_eq_ok.mp h
    obtain rfl := Except.ok.inj h
    exact ⟨⟨_, hval⟩, _, hval⟩

/-- A range is read from the texts of its members, or from the one text of both. -/
theorem stringableRangeFromString_members {memberFromString : GoString → Except RangeError ℤ}
    {first second : GoString} {r : InclusiveRange} (hfirst : memberFromString first = .ok r.begin)
    (hsecond : memberFromString second = .ok r.end') (hlower : Lower first ∧ Lower second)
    (hcolon : 58 ∉ first ∧ 58 ∉ second) :
    stringableRangeFromString memberFromString
      (if r.begin = r.end' then first else first ++ 58 :: second) = .ok r := by
  split_ifs with heq
  · simp only [stringableRangeFromString, toLower_eq hlower.1, if_neg hcolon.1, hfirst]
    change Except.ok (⟨r.begin, r.begin⟩ : InclusiveRange) = _
    congr 2
  · have hboth : Lower (first ++ 58 :: second) := by
      intro b hb
      obtain hb | hb := List.mem_append.mp hb
      · exact hlower.1 b hb
      · obtain rfl | hb := List.mem_cons.mp hb
        · decide
        · exact hlower.2 b hb
    have hsplit : (first ++ 58 :: second).splitOn 58 = [first, second] := by
      rw [List.splitOn_append_cons_self, List.splitOn_eq_singleton hcolon.1,
        List.splitOn_eq_singleton hcolon.2, List.singleton_append]
    simp only [stringableRangeFromString, toLower_eq hboth, hsplit, hfirst, hsecond]
    rw [if_pos (by simp)]
    rfl

/-- A range of numbers is read back, if the numbers are. -/
theorem stringableRangeFromString_marshalText
    {memberFromString : GoString → Except RangeError ℤ} {r : InclusiveRange} {s : GoString}
    (hread : stringableRangeFromString memberFromString s = .ok r)
    (hmember : ∀ s' n, memberFromString s' = .ok n →
      memberFromString (Strconv.itoa n) = .ok n) :
    ∃ s', r.marshalText = .ok s' ∧ stringableRangeFromString memberFromString s' = .ok r := by
  obtain ⟨⟨first, hfirst⟩, second, hsecond⟩ := exists_members hread
  have hprinted := stringableRangeFromString_members (hmember first _ hfirst)
    (hmember second _ hsecond) ⟨lower_itoa _, lower_itoa _⟩
    ⟨colon_not_mem_itoa _, colon_not_mem_itoa _⟩
  refine ⟨_, ?_, hprinted⟩
  rw [InclusiveRange.marshalText]
  split_ifs <;> rfl

/-- A kind of ranges that are written as numbers. -/
theorem readsBack_marshalText {memberFromString : GoString → Except RangeError ℤ}
    {validate : InclusiveRange → Except RangeError InclusiveRange}
    (hmember : ∀ s n, memberFromString s = .ok n → memberFromString (Strconv.itoa n) = .ok n)
    (hvalidate : ∀ r r', validate r = .ok r' → r' = r) :
    ReadsBack (fun s => (stringableRangeFromString memberFromString s).bind validate)
      InclusiveRange.marshalText := by
  intro s r hs
  obtain ⟨r₀, hread, hvalid⟩ := bind_eq_ok.mp hs
  obtain rfl := hvalidate r₀ r hvalid
  obtain ⟨s', hwrite, hread'⟩ := stringableRangeFromString_marshalText hread hmember
  exact ⟨s', hwrite, bind_eq_ok.mpr ⟨r, hread', hvalid⟩⟩

theorem MonthRange.readsBack : ReadsBack unmarshalYAML InclusiveRange.marshalText :=
  readsBack_marshalText (fun _ _ => memberFromString_itoa) fun _ _ => refuse_pure_eq_ok

theorem YearRange.readsBack : ReadsBack unmarshalYAML InclusiveRange.marshalText :=
  readsBack_marshalText (fun _ _ => InclusiveRange.memberFromString_itoa)
    fun _ _ => refuse_pure_eq_ok

theorem DayOfMonthRange.readsBack : ReadsBack unmarshalYAML InclusiveRange.marshalText := by
  refine readsBack_marshalText (fun _ _ => InclusiveRange.memberFromString_itoa) fun r r' h => ?_
  simp only [validate, refuse_bind] at h
  split_ifs at h
  all_goals exact (Except.ok.inj h).symm

theorem WeekdayRange.readsBack : ReadsBack unmarshalYAML marshalText := by
  intro s r hs
  obtain ⟨r₀, hread, hvalid⟩ := bind_eq_ok.mp hs
  obtain ⟨rfl, hbegin, horder, hend, hvalid'⟩ := validate_eq_ok hvalid
  obtain ⟨first, hfirst, hmember, hlower, hcolon⟩ :=
    exists_weekdayName (n := r.begin) (by omega)
  obtain ⟨second, hsecond, hmember', hlower', hcolon'⟩ :=
    exists_weekdayName (n := r.end') (by omega)
  have hprinted := stringableRangeFromString_members hmember hmember' ⟨hlower, hlower'⟩
    ⟨hcolon, hcolon'⟩
  refine ⟨_, ?_, bind_eq_ok.mpr ⟨r, hprinted, hvalid' _⟩⟩
  simp only [marshalText, hfirst, hsecond]
  split_ifs <;> rfl

end

/-! ### Times are read back -/

/-- The two digits of a number below a hundred. -/
def twoDigits (n : ℕ) : GoString := [.ofNat (48 + n / 10), .ofNat (48 + n % 10)]

theorem pad2_eq {n : ℕ} (h : n < 100) : pad2 n = twoDigits n := by
  rw [pad2, Strconv.itoa_natCast]
  split_ifs with hsmall
  · have hlt : n < 10 := by omega
    rw [str_toString_of_lt hlt, twoDigits, Nat.div_eq_of_lt hlt, Nat.mod_eq_of_lt hlt]
    rfl
  · rw [str_toString_of_ten_le (by omega), str_toString_of_lt (by omega)]
    rfl

theorem mem_digitUpTo {k : ℕ} {x : GoString} :
    x ∈ (digitUpTo k).matches' ↔ ∃ d ≤ k, x = [.ofNat (48 + d)] := by
  have hsum : ∀ ds : List ℕ, x ∈ ((ds.map fun d => (.char (.ofNat (48 + d)) :
      RegularExpression UInt8)).sum).matches' ↔ ∃ d ∈ ds, x = [.ofNat (48 + d)] := by
    intro ds
    induction ds with
    | nil => simp
    | cons d ds ih =>
      rw [List.map_cons, List.sum_cons, RegularExpression.matches'_add, Language.mem_add, ih,
        RegularExpression.matches'_char]
      simp only [List.mem_cons, exists_eq_or_imp]
      exact Iff.rfl
  simp only [digitUpTo, hsum, List.mem_range, Nat.lt_succ_iff]

theorem mem_char {b : UInt8} {x : GoString} :
    x ∈ (RegularExpression.char b).matches' ↔ x = [b] := Iff.rfl

theorem twoDigits_eq {a b : ℕ} (hb : b ≤ 9) :
    twoDigits (10 * a + b) = [.ofNat (48 + a)] ++ [.ofNat (48 + b)] := by
  rw [twoDigits, show (10 * a + b) / 10 = a by omega, show (10 * a + b) % 10 = b by omega]
  rfl

theorem mem_hoursRE {x : GoString} : x ∈ hoursRE.matches' ↔ ∃ h < 24, x = twoDigits h := by
  simp only [hoursRE, RegularExpression.matches'_add, Language.mem_add,
    RegularExpression.matches'_mul, Language.mem_mul, mem_digitUpTo, mem_char]
  constructor
  · rintro (⟨_, ⟨a, ha, rfl⟩, _, ⟨b, hb, rfl⟩, rfl⟩ | ⟨_, rfl, _, ⟨b, hb, rfl⟩, rfl⟩)
    · exact ⟨10 * a + b, by omega, (twoDigits_eq hb).symm⟩
    · exact ⟨10 * 2 + b, by omega, (twoDigits_eq (a := 2) (b := b) (by omega)).symm⟩
  · rintro ⟨h, hlt, rfl⟩
    by_cases hten : h < 20
    · exact .inl ⟨_, ⟨h / 10, by omega, rfl⟩, _, ⟨h % 10, by omega, rfl⟩, rfl⟩
    · refine .inr ⟨_, rfl, _, ⟨h % 10, by omega, rfl⟩, ?_⟩
      rw [twoDigits, show h / 10 = 2 by omega]
      rfl

theorem mem_minutesRE {x : GoString} : x ∈ minutesRE.matches' ↔ ∃ m < 60, x = twoDigits m := by
  simp only [minutesRE, RegularExpression.matches'_mul, Language.mem_mul, mem_digitUpTo]
  constructor
  · rintro ⟨_, ⟨a, ha, rfl⟩, _, ⟨b, hb, rfl⟩, rfl⟩
    exact ⟨10 * a + b, by omega, (twoDigits_eq hb).symm⟩
  · rintro ⟨m, hlt, rfl⟩
    exact ⟨_, ⟨m / 10, by omega, rfl⟩, _, ⟨m % 10, by omega, rfl⟩, rfl⟩

theorem mem_endOfDayRE {x : GoString} :
    x ∈ endOfDayRE.matches' ↔ x = twoDigits 24 ++ 58 :: twoDigits 0 := by
  simp only [endOfDayRE, RegularExpression.matches'_mul, Language.mem_mul, mem_char]
  constructor
  · rintro ⟨_, rfl, _, ⟨_, rfl, _, ⟨_, rfl, _, ⟨_, rfl, _, rfl, rfl⟩, rfl⟩, rfl⟩, rfl⟩
    rfl
  · rintro rfl
    exact ⟨_, rfl, _, ⟨_, rfl, _, ⟨_, rfl, _, ⟨_, rfl, _, rfl, rfl⟩, rfl⟩, rfl⟩, rfl⟩

/-- The times of a day, and its end. -/
def IsClock (h m : ℕ) : Prop := h < 24 ∧ m < 60 ∨ h = 24 ∧ m = 0

theorem validTimeRE_iff {s : GoString} : validTimeRE.rmatch s = true ↔
    ∃ h m, IsClock h m ∧ s = twoDigits h ++ 58 :: twoDigits m := by
  rw [RegularExpression.rmatch_iff_matches', validTimeRE, RegularExpression.matches'_add,
    Language.mem_add]
  simp only [RegularExpression.matches'_mul, Language.mem_mul, mem_hoursRE, mem_minutesRE,
    mem_char, mem_endOfDayRE]
  constructor
  · rintro (⟨_, ⟨h, hh, rfl⟩, _, ⟨_, rfl, _, ⟨m, hm, rfl⟩, rfl⟩, rfl⟩ | rfl)
    · exact ⟨h, m, .inl ⟨hh, hm⟩, rfl⟩
    · exact ⟨24, 0, .inr ⟨rfl, rfl⟩, rfl⟩
  · rintro ⟨h, m, ⟨hh, hm⟩ | ⟨rfl, rfl⟩, rfl⟩
    · exact .inl ⟨_, ⟨h, hh, rfl⟩, _, ⟨_, rfl, _, ⟨m, hm, rfl⟩, rfl⟩, rfl⟩
    · exact .inr rfl

theorem mem_twoDigits {n : ℕ} (h : n < 100) {b : UInt8} (hb : b ∈ twoDigits n) :
    48 ≤ b.toNat ∧ b.toNat ≤ 57 := by
  simp only [twoDigits, List.mem_cons, List.not_mem_nil, or_false] at hb
  obtain rfl | rfl := hb
  all_goals
    rw [UInt8.toNat_ofNat']
    omega

theorem atoi_twoDigits {n : ℕ} (h : n < 100) : Strconv.atoi (twoDigits n) = .ok (n : ℤ) := by
  have hparse : Strconv.parseUint 0 (twoDigits n) = .ok n := by
    have hfirst := Strconv.parseUint_digit (n := 0) (d := n / 10) (by omega) (by omega)
    have hsecond := Strconv.parseUint_digit (n := 0 * 10 + n / 10) (d := n % 10) (by omega)
      (by omega)
    rw [twoDigits, ← List.singleton_append, Strconv.parseUint_append, hfirst]
    refine hsecond.trans ?_
    congr 1
    omega
  rw [Strconv.atoi_digits fun b hb => (mem_twoDigits h hb).1, Strconv.signed,
    if_neg (by simp [twoDigits]), hparse]
  exact if_neg (by omega)

theorem colon_not_mem_twoDigits {n : ℕ} (h : n < 100) : 58 ∉ twoDigits n :=
  fun hmem => absurd (mem_twoDigits h hmem).2 (by decide)

theorem parseTime_clock {h m : ℕ} (hclock : IsClock h m) :
    parseTime (twoDigits h ++ 58 :: twoDigits m) = .ok (h * 60 + m) := by
  have hvalid := validTimeRE_iff.mpr ⟨h, m, hclock, rfl⟩
  unfold IsClock at hclock
  have hsplit : (twoDigits h ++ 58 :: twoDigits m).splitOn 58 = [twoDigits h, twoDigits m] := by
    rw [List.splitOn_append_cons_self,
      List.splitOn_eq_singleton (colon_not_mem_twoDigits (by omega)),
      List.splitOn_eq_singleton (colon_not_mem_twoDigits (by omega)), List.singleton_append]
  have hhours := atoi_twoDigits (n := h) (by omega)
  have hminutes := atoi_twoDigits (n := m) (by omega)
  rw [parseTime, if_neg (by simpa using hvalid)]
  simp only [hsplit, hhours, hminutes]
  exact if_neg (by omega)

theorem parseTime_eq_ok {s : GoString} {n : ℤ} (h : parseTime s = .ok n) :
    ∃ hours minutes, IsClock hours minutes ∧ n = hours * 60 + minutes := by
  by_cases hvalid : validTimeRE.rmatch s = true
  · obtain ⟨hours, minutes, hclock, rfl⟩ := validTimeRE_iff.mp hvalid
    rw [parseTime_clock hclock] at h
    exact ⟨hours, minutes, hclock, (Except.ok.inj h).symm⟩
  · rw [parseTime, if_pos hvalid] at h
    cases h

/-- What is written for a time is read back. -/
theorem parseTime_printed {s : GoString} {n : ℤ} (h : parseTime s = .ok n) :
    parseTime (pad2 (n.tdiv 60) ++ 58 :: pad2 (n.tmod 60)) = .ok n := by
  obtain ⟨hours, minutes, hclock, rfl⟩ := parseTime_eq_ok h
  have hlt : minutes < 60 ∧ hours < 100 := by
    unfold IsClock at hclock
    omega
  have hdiv : ((hours : ℤ) * 60 + minutes).tdiv 60 = hours := by
    rw [Int.tdiv_eq_ediv_of_nonneg (by omega)]
    omega
  have hmod : ((hours : ℤ) * 60 + minutes).tmod 60 = minutes := by
    rw [Int.tmod_eq_emod_of_nonneg (by omega)]
    omega
  rw [hdiv, hmod, pad2_eq hlt.2, pad2_eq (by omega), parseTime_clock hclock]

theorem TimeRange.readsBack : ReadsBack unmarshalYAML marshalYAML := by
  intro y r hy
  rw [unmarshalYAML] at hy
  split_ifs at hy
  obtain ⟨start, hstart, hy⟩ := bind_eq_ok.mp hy
  obtain ⟨end', hend, hy⟩ := bind_eq_ok.mp hy
  split_ifs at hy with horder
  obtain rfl := Except.ok.inj hy
  refine ⟨_, rfl, ?_⟩
  rw [unmarshalYAML, if_neg (by simp)]
  refine bind_eq_ok.mpr ⟨start, parseTime_printed hstart, ?_⟩
  refine bind_eq_ok.mpr ⟨end', parseTime_printed hend, ?_⟩
  exact if_neg horder

/-! ### Intervals are read back -/

theorem unmarshalLocation_name [TimeZones] {name : Option GoString} {l : Option Location}
    (h : unmarshalLocation name = .ok l) : unmarshalLocation (l.map (·.name)) = .ok l := by
  cases name with
  | none =>
    obtain rfl := Except.ok.inj h
    rfl
  | some name =>
    obtain ⟨l, hl, rfl⟩ := map_eq_ok.mp h
    exact map_eq_ok.mpr ⟨l, mapError_eq_ok.mpr (loadLocation_name (mapError_eq_ok.mp hl)), rfl⟩

namespace LocatedInterval

/-- Some list is there but empty. -/
def HasEmpty (tp : LocatedInterval) : Prop :=
  tp.times = some [] ∨ tp.weekdays = some [] ∨ tp.daysOfMonth = some [] ∨ tp.months = some [] ∨
    tp.years = some []

/-- The interval without its empty lists. -/
def withoutEmpty (tp : LocatedInterval) : LocatedInterval where
  times := omitEmpty tp.times
  weekdays := omitEmpty tp.weekdays
  daysOfMonth := omitEmpty tp.daysOfMonth
  months := omitEmpty tp.months
  years := omitEmpty tp.years
  location := tp.location

theorem withoutEmpty_eq {tp : LocatedInterval} (h : ¬tp.HasEmpty) : tp.withoutEmpty = tp := by
  simp only [HasEmpty, not_or] at h
  obtain ⟨htimes, hweekdays, hdays, hmonths, hyears⟩ := h
  rw [withoutEmpty, omitEmpty_eq htimes, omitEmpty_eq hweekdays, omitEmpty_eq hdays,
    omitEmpty_eq hmonths, omitEmpty_eq hyears]

theorem containsTime_of_hasEmpty {tp : LocatedInterval} (h : tp.HasEmpty) (t : Instant) :
    tp.containsTime t = false := by
  rcases h with h | h | h | h | h <;> simp [containsTime, TimeInterval.containsTime, admits, h]

section
variable [UnicodeCase] [TimeZones]

theorem unmarshalYAML_eq_ok_iff {y : YamlInterval} {tp : LocatedInterval} :
    unmarshalYAML y = .ok tp ↔
      decodeField TimeRange.unmarshalYAML IntervalError.time y.times = .ok tp.times ∧
      decodeField WeekdayRange.unmarshalYAML IntervalError.range y.weekdays = .ok tp.weekdays ∧
      decodeField DayOfMonthRange.unmarshalYAML IntervalError.range y.daysOfMonth =
        .ok tp.daysOfMonth ∧
      decodeField MonthRange.unmarshalYAML IntervalError.range y.months = .ok tp.months ∧
      decodeField YearRange.unmarshalYAML IntervalError.range y.years = .ok tp.years ∧
      unmarshalLocation y.location = .ok tp.location := by
  simp only [unmarshalYAML, bind_eq_ok]
  constructor
  · rintro ⟨_, htimes, _, hweekdays, _, hdays, _, hmonths, _, hyears, _, hlocation, h⟩
    obtain rfl := Except.ok.inj h
    exact ⟨htimes, hweekdays, hdays, hmonths, hyears, hlocation⟩
  · rintro ⟨htimes, hweekdays, hdays, hmonths, hyears, hlocation⟩
    exact ⟨_, htimes, _, hweekdays, _, hdays, _, hmonths, _, hyears, _, hlocation, rfl⟩

/-- An interval that was read is written, and read back without its empty lists. -/
theorem exists_marshalYAML {y : YamlInterval} {tp : LocatedInterval}
    (h : unmarshalYAML y = .ok tp) :
    ∃ y', tp.marshalYAML = .ok y' ∧ unmarshalYAML y' = .ok tp.withoutEmpty := by
  obtain ⟨htimes, hweekdays, hdays, hmonths, hyears, hlocation⟩ := unmarshalYAML_eq_ok_iff.mp h
  obtain ⟨times, hwrite₁, hread₁⟩ := TimeRange.readsBack.decodeField _ htimes
  obtain ⟨weekdays, hwrite₂, hread₂⟩ := WeekdayRange.readsBack.decodeField _ hweekdays
  obtain ⟨days, hwrite₃, hread₃⟩ := DayOfMonthRange.readsBack.decodeField _ hdays
  obtain ⟨months, hwrite₄, hread₄⟩ := MonthRange.readsBack.decodeField _ hmonths
  obtain ⟨years, hwrite₅, hread₅⟩ := YearRange.readsBack.decodeField _ hyears
  refine ⟨⟨times, weekdays, days, months, years, tp.location.map (·.name)⟩, ?_, ?_⟩
  · simp only [marshalYAML, bind_eq_ok]
    exact ⟨_, hwrite₁, _, hwrite₂, _, hwrite₃, _, hwrite₄, _, hwrite₅, rfl⟩
  · exact unmarshalYAML_eq_ok_iff.mpr ⟨hread₁, hread₂, hread₃, hread₄, hread₅,
      unmarshalLocation_name hlocation⟩

/-- An interval that was read keeps its meaning through YAML if and only if none of its
lists is empty, or it contains no instant without them either. -/
theorem yaml_keeps_meaning_iff {y : YamlInterval} {tp : LocatedInterval}
    (h : unmarshalYAML y = .ok tp) :
    (∃ y', tp.marshalYAML = .ok y' ∧ ∃ tp', unmarshalYAML y' = .ok tp' ∧
      ∀ t, tp'.containsTime t = tp.containsTime t) ↔
    ¬tp.HasEmpty ∨ ∀ t, tp.withoutEmpty.containsTime t = false := by
  obtain ⟨y', hwrite, hread⟩ := exists_marshalYAML h
  have hsame : (∃ y', tp.marshalYAML = .ok y' ∧ ∃ tp', unmarshalYAML y' = .ok tp' ∧
      ∀ t, tp'.containsTime t = tp.containsTime t) ↔
      ∀ t, tp.withoutEmpty.containsTime t = tp.containsTime t := by
    constructor
    · rintro ⟨_, hwrite', _, hread', hsame⟩
      obtain rfl := Except.ok.inj (hwrite.symm.trans hwrite')
      obtain rfl := Except.ok.inj (hread.symm.trans hread')
      exact hsame
    · intro hsame
      exact ⟨y', hwrite, tp.withoutEmpty, hread, hsame⟩
  rw [hsame]
  by_cases hempty : tp.HasEmpty
  · simp [hempty, containsTime_of_hasEmpty hempty]
  · simp [hempty, withoutEmpty_eq hempty]

end

section
attribute [local instance] asciiCase

/-- What a clock shows in UTC. -/
def utcClock (t : ℤ) : Time :=
  ⟨.ofEpoch (t / 86400000000000), (t / 3600000000000 % 24).toNat, (t / 60000000000 % 60).toNat,
    by omega, by omega⟩

/-- A host in UTC without the database of time zones. -/
local instance yamlZones : TimeZones where
  utc := utcClock
  localClock := utcClock
  zone name := .error (str "unknown time zone " ++ name)

/-- An interval with every kind of range. -/
def workingHours : YamlInterval where
  times := some [⟨str "09:00", str "17:30"⟩, ⟨str "22:15", str "24:00"⟩]
  weekdays := some [str "Monday:friday", str "sunday"]
  daysOfMonth := some [str "1:-7"]
  months := some [str "march:12"]
  years := some [str "2020:2021", str "2030"]
  location := some (str "UTC")

theorem yaml_keeps_meaning_iff_working_hours :
    ∃ tp, unmarshalYAML workingHours = .ok tp ∧
      ∃ y', tp.marshalYAML = .ok y' ∧ ∃ tp', unmarshalYAML y' = .ok tp' ∧
        ∀ t, tp'.containsTime t = tp.containsTime t := by
  have hread : unmarshalYAML workingHours = .ok
      { times := some [⟨540, 1050⟩, ⟨1335, 1440⟩]
        weekdays := some [⟨1, 5⟩, ⟨0, 0⟩]
        daysOfMonth := some [⟨1, -7⟩]
        months := some [⟨3, 12⟩]
        years := some [⟨2020, 2021⟩, ⟨2030, 2030⟩]
        location := some ⟨str "UTC", TimeZones.utc⟩ } :=
    unmarshalYAML_eq_ok_iff.mpr ⟨by decide +kernel, by decide +kernel, by decide +kernel,
      by decide +kernel, by decide +kernel, rfl⟩
  refine ⟨_, hread, (yaml_keeps_meaning_iff hread).mpr (.inl ?_)⟩
  simp [HasEmpty]

/-- An interval with an empty list of times contains no instant, and all of them when it
comes back from YAML. -/
theorem empty_times_admit_all :
    ∃ tp y' tp', unmarshalYAML { times := some [] } = .ok tp ∧ tp.marshalYAML = .ok y' ∧
      unmarshalYAML y' = .ok tp' ∧
      ∀ t, tp.containsTime t = false ∧ tp'.containsTime t = true :=
  ⟨⟨some [], none, none, none, none, none⟩, {}, ⟨none, none, none, none, none, none⟩,
    rfl, rfl, rfl, fun _ => ⟨rfl, rfl⟩⟩

end

end LocatedInterval

end Alertmanager
