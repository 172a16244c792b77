import Splice.Text.Basic

/-!
# Dates and times

Dates of the Gregorian calendar from year 1 to 9999, and times of day to the microsecond, with or
without an offset from universal time.

* `Date.check`, `DateTime.check` — why fields are no date or time;
* `DateTime.instant` — the order of times with an offset; and
* `Date.iso`, `DateTime.iso` — the written forms, and `Date.shown`, `DateTime.shown` — the forms
  inside other values.
-/

namespace Splice

/-- A date of the Gregorian calendar. -/
structure Date where
  /-- The year. -/
  year : Nat
  /-- The month, from 1. -/
  month : Nat
  /-- The day of the month, from 1. -/
  day : Nat
deriving DecidableEq, Repr

/-- A date with a time of day. -/
structure DateTime where
  /-- The date. -/
  date : Date
  /-- The hour, below 24. -/
  hour : Nat
  /-- The minute, below 60. -/
  minute : Nat
  /-- The second, below 60. -/
  second : Nat
  /-- The millionths of a second. -/
  micro : Nat
  /-- The minutes by which the time is ahead of universal time, if that is known. -/
  offset : Option Int
deriving DecidableEq, Repr

/-- Why some fields make no date or time. -/
inductive MomentError where
  /-- The year is not in 1 to 9999. -/
  | year (n : Nat)
  /-- The month is not in 1 to 12. -/
  | month
  /-- The month has no such day. -/
  | day
  /-- The hour is above 23. -/
  | hour
  /-- The minute is above 59. -/
  | minute
  /-- The second is above 59. -/
  | second
  /-- The offset, in minutes, is a whole day or more. -/
  | offset (minutes : Int)
deriving DecidableEq, Repr

namespace Date

/-- Does the year have a 29 February? -/
def isLeap (year : Nat) : Bool := year % 4 = 0 && (year % 100 ≠ 0 || year % 400 = 0)

/-- The number of days of a month. -/
def daysIn (year month : Nat) : Nat :=
  match month with
  | 2 => if isLeap year then 29 else 28
  | 4 | 6 | 9 | 11 => 30
  | _ => 31

/-- The date with these fields, or the first field that is out of range. -/
def check (date : Date) : Except MomentError Date :=
  if date.year < 1 ∨ 9999 < date.year then .error (.year date.year)
  else if date.month < 1 ∨ 12 < date.month then .error .month
  else if date.day < 1 ∨ daysIn date.year date.month < date.day then .error .day
  else .ok date

/-- The number of days from the beginning of year 1. -/
def ordinal (date : Date) : Nat :=
  let y := date.year - 1
  let months := (List.range (date.month - 1)).map fun m => daysIn date.year (m + 1)
  365 * y + y / 4 - y / 100 + y / 400 + months.foldl (· + ·) 0 + date.day

/-- A number with at least `width` digits. -/
def padded (width n : Nat) : Text :=
  let digits := Text.ofNat n
  List.replicate (width - digits.length) '0' ++ digits

/-- The date with hyphens between its fields. -/
def iso (date : Date) : Text :=
  padded 4 date.year ++ '-' :: padded 2 date.month ++ '-' :: padded 2 date.day

/-- Numbers with commas between them. -/
def arguments (numbers : List Nat) : Text := List.intercalate ", " (numbers.map Text.ofNat)

/-- The form inside other values. -/
def shown (date : Date) : Text :=
  "datetime.date(" ++ arguments [date.year, date.month, date.day] ++ ")"

end Date

namespace DateTime

/-- The time with these fields, or the first that is out of range: the offset counts before the date
and the date before the time of day. -/
def check (t : DateTime) : Except MomentError DateTime := do
  if let some minutes := t.offset then
    if minutes ≤ -1440 ∨ 1440 ≤ minutes then throw (.offset minutes)
  let _ ← t.date.check
  if 23 < t.hour then throw .hour
  if 59 < t.minute then throw .minute
  if 59 < t.second then throw .second
  return t

/-- The microseconds from the beginning of year 1, in universal time if the offset is known. -/
def instant (t : DateTime) : Int :=
  let minutes : Int := (t.date.ordinal * 1440 + t.hour * 60 + t.minute : Nat) - t.offset.getD 0
  (minutes * 60 + t.second) * 1000000 + t.micro

/-- Do two times name the same moment? A time with an offset is never the same as one without. -/
def same (s t : DateTime) : Bool := s.offset.isSome == t.offset.isSome && s.instant == t.instant

/-- An offset as a sign, hours and minutes. -/
def isoOffset (minutes : Int) : Text :=
  (if minutes < 0 then '-' else '+') :: Date.padded 2 (minutes.natAbs / 60)
    ++ ':' :: Date.padded 2 (minutes.natAbs % 60)

/-- The date and the time of day, with a fraction of six digits unless it is zero, and the
offset. -/
def iso (t : DateTime) : Text :=
  t.date.iso ++ ' ' :: Date.padded 2 t.hour ++ ':' :: Date.padded 2 t.minute
    ++ ':' :: Date.padded 2 t.second
    ++ (if t.micro = 0 then [] else '.' :: Date.padded 6 t.micro)
    ++ (t.offset.map isoOffset).getD []

/-- A length of time in minutes, as whole days and the seconds above them. -/
def shownMinutes (minutes : Int) : Text :=
  let days := minutes.fdiv 1440
  let seconds := minutes.fmod 1440 * 60
  let parts : List Text :=
    (if days = 0 then [] else ["days=" ++ Text.ofInt days])
      ++ (if seconds = 0 then [] else ["seconds=" ++ Text.ofInt seconds])
  let inside : Text := if parts.isEmpty then "0" else List.intercalate ", " parts
  "datetime.timedelta(" ++ inside ++ ")"

/-- The form of an offset inside other values. -/
def shownOffset (minutes : Int) : Text :=
  if minutes = 0 then "datetime.timezone.utc"
  else "datetime.timezone(" ++ shownMinutes minutes ++ ")"

/-- The form inside other values. Seconds and their fraction are left out if both are zero, and the
fraction if it is zero. -/
def shown (t : DateTime) : Text :=
  let fraction := if t.micro = 0 then [] else [t.micro]
  let seconds := if t.second = 0 ∧ t.micro = 0 then [] else t.second :: fraction
  "datetime.datetime("
    ++ Date.arguments ([t.date.year, t.date.month, t.date.day, t.hour, t.minute] ++ seconds)
    ++ (match t.offset with
      | none => []
      | some minutes => ", tzinfo=" ++ shownOffset minutes)
    ++ ")"

end DateTime

/-- The wording of an error. -/
def MomentError.message : MomentError → Text
  | .year n => "year " ++ Text.ofNat n ++ " is out of range"
  | .month => "month must be in 1..12"
  | .day => "day is out of range for month"
  | .hour => "hour must be in 0..23"
  | .minute => "minute must be in 0..59"
  | .second => "second must be in 0..59"
  | .offset minutes =>
      "offset must be a timedelta strictly between -timedelta(hours=24) and "
        ++ "timedelta(hours=24), not " ++ DateTime.shownMinutes minutes ++ "."

end Splice
