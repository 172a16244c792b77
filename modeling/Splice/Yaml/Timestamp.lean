import Splice.Yaml.Error

/-!
# Dates and times

A date is a year, a month and a day with hyphens between them. A time of day may follow, then a
fraction of a second, and then the offset from universal time.

* `Yaml.Fields` — what is written, and `Yaml.fields?` — the reader;
* `Yaml.isTimestamp` — does a plain scalar have the form of a date or a time; and
* `Yaml.timestamp` — the date or the time that a text stands for.
-/

namespace Splice.Yaml

/-- A time of day as it is written. -/
structure ClockFields where
  /-- The hour. -/
  hour : Nat
  /-- The minute. -/
  minute : Nat
  /-- The second. -/
  second : Nat
  /-- The digits behind the point. -/
  fraction : Text
  /-- The minutes by which the time is ahead of universal time, if that is given. -/
  offset : Option Int
deriving DecidableEq, Repr

/-- A date, perhaps with a time of day, as it is written. -/
structure Fields where
  /-- The date. -/
  date : Date
  /-- The number of characters of the date. -/
  width : Nat
  /-- The time of day. -/
  clock : Option ClockFields
deriving DecidableEq, Repr

/-- A number of `least` to `most` digits, and what follows it. -/
def number? (least most : Nat) (text : Text) : Option (Nat × Text) :=
  let digits := (text.take most).takeWhile Char.isDigit
  if least ≤ digits.length then
    some (Text.digitsValue 10 (digits.filterMap Text.hexDigit?), text.drop digits.length)
  else none

/-- What follows a character. -/
def after? (c : Char) : Text → Option Text
  | [] => none
  | d :: text => if d = c then some text else none

/-- Is the character a space or a tab? -/
def isFieldBlank (c : Char) : Bool := c = ' ' || c = '\t'

/-- The offset that ends a time, in minutes, if one is given. -/
def offset? (text : Text) : Option (Option Int) :=
  if text.isEmpty then some none
  else
    match text.dropWhile isFieldBlank with
    | ['Z'] => some (some 0)
    | sign :: text => do
        if sign ≠ '+' ∧ sign ≠ '-' then none
        else
          let (hours, rest) ← number? 1 2 text
          let minutes ← if rest.isEmpty then some 0 else do
            let (minutes, rest) ← number? 2 2 (← after? ':' rest)
            if rest.isEmpty then some minutes else none
          let offset : Int := (60 * hours + minutes : Nat)
          return some (if sign = '-' then -offset else offset)
    | [] => none

/-- A time of day with all that follows it. -/
def clock? (text : Text) : Option ClockFields := do
  let (hour, text) ← number? 1 2 text
  let (minute, text) ← number? 2 2 (← after? ':' text)
  let (second, text) ← number? 2 2 (← after? ':' text)
  let (fraction, text) := match text with
    | '.' :: text => (text.takeWhile Char.isDigit, text.dropWhile Char.isDigit)
    | text => ([], text)
  return { hour, minute, second, fraction, offset := ← offset? text }

/-- What stands between the date and the time of day is a letter or blanks. -/
def afterDate? : Text → Option Text
  | 'T' :: text | 't' :: text => some text
  | c :: text => if isFieldBlank c then some (text.dropWhile isFieldBlank) else none
  | [] => none

/-- A date, perhaps with a time of day. -/
def fields? (text : Text) : Option Fields := do
  let (year, rest) ← number? 4 4 text
  let (month, rest) ← number? 1 2 (← after? '-' rest)
  let (day, rest) ← number? 1 2 (← after? '-' rest)
  let date : Date := ⟨year, month, day⟩
  let width := text.length - rest.length
  if rest.isEmpty then return { date, width, clock := none }
  else return { date, width, clock := some (← clock? (← afterDate? rest)) }

/-- Does a plain scalar have the form of a date or a time? Without a time of day, the month and the
day have two digits. -/
def isTimestamp (text : Text) : Bool :=
  match fields? text with
  | none => false
  | some fields => fields.clock.isSome || fields.width = 10

/-- The millionths of a second that the digits behind a point stand for. Digits beyond the sixth
have no meaning. -/
def microseconds (fraction : Text) : Nat :=
  let digits := (fraction.take 6).filterMap Text.hexDigit?
  Text.digitsValue 10 digits * Nat.pow 10 (6 - digits.length)

/-- The date or the time that a text stands for. -/
def timestamp (text : Text) : Except Error (Date ⊕ DateTime) :=
  match fields? (Text.dropFinalBreak text) with
  | none => .error .notATime
  | some ⟨date, _, none⟩ => (date.check.map .inl).mapError .moment
  | some ⟨date, _, some clock⟩ =>
      let time : DateTime :=
        { date, hour := clock.hour, minute := clock.minute, second := clock.second
          micro := microseconds clock.fraction, offset := clock.offset }
      (time.check.map .inr).mapError .moment

end Splice.Yaml
