import Splice.Number.Double
import Splice.Text.Blank
import Splice.Text.Digit
import Splice.Yaml.Error

/-!
# Numbers

Integers are written in base two, eight, ten or sixteen, floating-point numbers in base ten, and
both in base sixty, with colons between the places. Underscores between digits have no meaning.

* `Yaml.isInteger`, `Yaml.isFloat` — does a plain scalar have the form of a number; and
* `Yaml.integer`, `Yaml.float` — the number that a text stands for. These accept more than what has
  the form: the digits of any script, and blanks around them.
-/

namespace Splice.Yaml

/-! ## Form -/

/-- Is the character an ASCII digit or an underscore? -/
def isPlace (c : Char) : Bool := c.isDigit || c = '_'

/-- The text without its sign. -/
def dropSign : Text → Text
  | '+' :: text | '-' :: text => text
  | text => text

/-- Does the text begin with a character of a class and consist of places otherwise? -/
def isNumeral (first : Char → Bool) : Text → Bool
  | [] => false
  | c :: text => first c && text.all isPlace

/-- Is the text a number below sixty, of one or two digits? -/
def isSexagesimal : Text → Bool
  | [c] => c.isDigit
  | [c, d] => '0' ≤ c && c ≤ '5' && d.isDigit
  | _ => false

/-- Is the text a numeral followed by places below sixty, with colons between them? -/
def isSexagesimalNumeral (first : Char → Bool) (text : Text) : Bool :=
  match Text.pieces ':' text with
  | head :: place :: places => isNumeral first head && (place :: places).all isSexagesimal
  | _ => false

/-- Is the character a digit other than zero? -/
def isLeadingDigit (c : Char) : Bool := '1' ≤ c && c ≤ '9'

/-- Is the text one or more characters of a class? -/
def isRun (p : Char → Bool) (text : Text) : Bool := !text.isEmpty && text.all p

/-- Does a plain scalar have the form of an integer? -/
def isInteger (text : Text) : Bool :=
  let text := dropSign text
  match text with
  | '0' :: 'b' :: digits => isRun (fun c => c = '0' || c = '1' || c = '_') digits
  | '0' :: 'x' :: digits => isRun (fun c => (Text.hexDigit? c).isSome || c = '_') digits
  | '0' :: digits => digits.all fun c => ('0' ≤ c && c ≤ '7') || c = '_'
  | _ => isNumeral isLeadingDigit text || isSexagesimalNumeral isLeadingDigit text

/-- Is the text an exponent with a sign, or empty? -/
def isExponent : Text → Bool
  | [] => true
  | e :: sign :: digits =>
      (e = 'e' || e = 'E') && (sign = '+' || sign = '-') && isRun Char.isDigit digits
  | _ => false

/-- Is the text the name of infinity, with its point? -/
def isInfinityName (text : Text) : Bool :=
  text = (".inf" : Text) || text = (".Inf" : Text) || text = (".INF" : Text)

/-- Is the text the name of what is no number, with its point? -/
def isNanName (text : Text) : Bool :=
  text = (".nan" : Text) || text = (".NaN" : Text) || text = (".NAN" : Text)

/-- Does a plain scalar have the form of a floating-point number? A point is needed, and a number
that begins with it has no sign. -/
def isFloat (text : Text) : Bool :=
  let unsigned := dropSign text
  match Text.cut? '.' unsigned with
  | none => false
  | some ([], fraction) =>
      isInfinityName unsigned || isNanName text
        || (text = unsigned && isNumeral Char.isDigit (fraction.takeWhile isPlace)
          && isExponent (fraction.dropWhile isPlace))
  | some (whole, fraction) =>
      (isNumeral Char.isDigit whole && isExponent (fraction.dropWhile isPlace))
        || (isSexagesimalNumeral Char.isDigit whole && fraction.all isPlace)

/-! ## Value -/

/-- May the character stand around a number? -/
def isNumberBlank (c : Char) : Bool := Text.isBlank c && !(28 ≤ c.toNat && c.toNat ≤ 31)

/-- The text without the blanks around it. -/
def trimNumber (text : Text) : Text :=
  ((text.dropWhile isNumberBlank).reverse.dropWhile isNumberBlank).reverse

/-- The sign of a number, and what follows it. -/
def splitSign : Text → Bool × Text
  | '-' :: text => (true, text)
  | '+' :: text => (false, text)
  | text => (false, text)

/-- An integer with a sign. -/
def signed (negative : Bool) (n : Int) : Int := if negative then -n else n

/-- The value of a digit in a base. -/
def digitIn? (base : Nat) (c : Char) : Option Nat :=
  let value := match Text.digit? c with
    | some d => some d
    | none => Text.hexDigit? c
  value.filter (· < base)

/-- The text without the mark of its base. -/
def dropBaseMark (base : Nat) : Text → Text
  | '0' :: c :: text =>
      let marked := (base = 2 && (c = 'b' || c = 'B')) || (base = 8 && (c = 'o' || c = 'O'))
        || (base = 16 && (c = 'x' || c = 'X'))
      if marked then text else '0' :: c :: text
  | text => text

/-- The greatest number of decimal digits that an integer may have. -/
def digitLimit : Nat := 4300

/-- The integer that a text stands for in a base. -/
def integerIn (base : Nat) (text : Text) : Except Error Int :=
  let (negative, digits) := splitSign (trimNumber text)
  let digits := dropBaseMark base digits
  let leading := (digits.takeWhile fun c => (digitIn? base c).isSome).length
  if base = 10 ∧ digitLimit < leading then .error (.tooManyDigits leading)
  else
    match digits.mapM (digitIn? base) with
    | some (d :: ds) => .ok (signed negative (Text.digitsValue base (d :: ds)))
    | _ => .error (.notAnInteger base text)

/-- The text without underscores. -/
def dropUnderscores (text : Text) : Text := text.filter (· ≠ '_')

/-- An integer whose places are given from the greatest on, in base sixty. -/
def sexagesimal (places : List Int) : Int := places.foldl (fun n place => 60 * n + place) 0

/-- The integer that a text stands for. A zero at the beginning stands for base eight. -/
def integer (text : Text) : Except Error Int :=
  let text := dropUnderscores text
  if text.isEmpty then .error .noDigits
  else
    let (negative, digits) := splitSign text
    let magnitude : Except Error Int :=
      match digits with
      | [] => .error .noDigits
      | ['0'] => .ok 0
      | '0' :: 'b' :: digits => integerIn 2 digits
      | '0' :: 'x' :: digits => integerIn 16 digits
      | '0' :: _ => integerIn 8 digits
      | _ =>
          -- Places in base sixty are set apart by colons.
          if digits.contains ':' then
            ((Text.pieces ':' digits).mapM (integerIn 10)).map sexagesimal
          else integerIn 10 digits
    magnitude.map (signed negative)

/-- The exponent that a text spells behind its letter, or zero for no text. -/
def exponent? : Text → Option Int
  | [] => some 0
  | 'e' :: text =>
      let (negative, digits) := splitSign text
      match digits.mapM Text.digit? with
      | some (d :: ds) => some (signed negative (Text.digitsValue 10 (d :: ds)))
      | _ => none
  | _ => none

/-- The number that a decimal numeral without sign stands for. -/
def decimal? (negative : Bool) (text : Text) : Option Double := do
  let isDigit (c : Char) : Bool := (Text.digit? c).isSome
  let whole := text.takeWhile isDigit
  let rest := text.dropWhile isDigit
  let (fraction, rest) := match rest with
    | '.' :: rest => (rest.takeWhile isDigit, rest.dropWhile isDigit)
    | rest => ([], rest)
  let exponent ← exponent? rest
  let digits := (whole ++ fraction).filterMap Text.digit?
  if digits.isEmpty then none
  else return Double.ofDecimal negative (Text.digitsValue 10 digits) (exponent - fraction.length)

/-- The floating-point number that a small-letter text stands for in base ten. -/
def floatIn10 (text : Text) : Except Error Double :=
  let (negative, unsigned) := splitSign (trimNumber text)
  if unsigned = ("inf" : Text) ∨ unsigned = ("infinity" : Text) then .ok (.infinite negative)
  else if unsigned = ("nan" : Text) then .ok .nan
  else
    match decimal? negative unsigned with
    | some x => .ok x
    | none => .error (.notANumber text)

/-- A number whose places are given from the least on, in base sixty. The place reached has the
weight `weight`. -/
def sexagesimalSum (sum : Double) (weight : Nat) : List Double → Double
  | [] => sum
  | place :: places =>
      sexagesimalSum (sum.add (place.mul (Double.ofInt weight))) (60 * weight) places

/-- The floating-point number that a text stands for. -/
def float (text : Text) : Except Error Double :=
  let text := Text.lower (dropUnderscores text)
  if text.isEmpty then .error .noDigits
  else
    let (negative, digits) := splitSign text
    let magnitude : Except Error Double :=
      if digits = (".inf" : Text) then .ok (.infinite false)
      else if digits = (".nan" : Text) then .ok .nan
      else if digits.contains ':' then
        ((Text.pieces ':' digits).mapM floatIn10).map fun places =>
          sexagesimalSum (.zero false) 1 places.reverse
      else floatIn10 digits
    magnitude.map fun x => if negative then x.neg else x

end Splice.Yaml
