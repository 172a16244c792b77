import Splice.Bindings
import Splice.Number.Double
import Splice.Text.Position

/-!
# JSON values

* `Json` — a JSON value; the fields of an object keep their order;
* `Json.Reason` — why a text is no JSON value; and
* `Json.Error` — such a reason with its place, or a numeral beyond the limit.
-/

namespace Splice

/-- A JSON value. Numerals with neither a point nor an exponent are integers of any size. -/
inductive Json where
  /-- The value `null`. -/
  | null
  /-- A truth value. -/
  | bool (b : Bool)
  /-- An integer. -/
  | int (n : Int)
  /-- A number with a point or an exponent, or one of the special numbers. -/
  | float (x : Double)
  /-- A string. -/
  | str (text : Text)
  /-- An array. -/
  | arr (items : List Json)
  /-- An object. -/
  | obj (fields : List (Text × Json))
deriving Repr

namespace Json

/-- Why a text is no JSON value. -/
inductive Reason where
  /-- No value begins here. -/
  | noValue
  /-- No field name begins here. -/
  | noName
  /-- A field name is not followed by a colon. -/
  | noColon
  /-- A field or an item is followed neither by a comma nor by the closing bracket. -/
  | noComma
  /-- The value is followed by something else. -/
  | extra
  /-- A string holds a raw control character. -/
  | controlCharacter
  /-- A backslash is followed by a character that names no escape. -/
  | badEscape
  /-- A numeric escape does not have four hexadecimal digits. -/
  | badNumericEscape
  /-- A string has no closing quote. -/
  | openString
  /-- The text begins with a byte order mark. -/
  | byteOrderMark
deriving DecidableEq, Repr

/-- The wording of a reason. -/
def Reason.message : Reason → Text
  | .noValue => "Expecting value"
  | .noName => "Expecting property name enclosed in double quotes"
  | .noColon => "Expecting ':' delimiter"
  | .noComma => "Expecting ',' delimiter"
  | .extra => "Extra data"
  | .controlCharacter => "Invalid control character at"
  | .badEscape => "Invalid \\escape"
  | .badNumericEscape => "Invalid \\uXXXX escape"
  | .openString => "Unterminated string starting at"
  | .byteOrderMark => "Unexpected UTF-8 BOM (decode using utf-8-sig)"

/-- The greatest number of digits of an integer that is read or shown. -/
def maxDigits : Nat := 4300

/-- Why a text was not read. -/
inductive Error where
  /-- The text is no JSON value. -/
  | malformed (reason : Reason) (position : Text.Position)
  /-- An integer has more than `maxDigits` digits. -/
  | tooManyDigits (digits : Nat)
deriving DecidableEq, Repr

/-- The wording for a numeral with too many digits. -/
def tooManyDigitsMessage (digits : Nat) : Text :=
  "Exceeds the limit (" ++ Text.ofNat maxDigits
    ++ " digits) for integer string conversion: value has " ++ Text.ofNat digits
    ++ " digits; use sys.set_int_max_str_digits() to increase the limit"

/-- The wording for an integer with too many digits to be shown. -/
def unshowableMessage : Text :=
  "Exceeds the limit (" ++ Text.ofNat maxDigits
    ++ " digits) for integer string conversion; use sys.set_int_max_str_digits() to increase the "
    ++ "limit"

/-- The wording of an error. -/
def Error.message : Error → Text
  | .malformed reason position => reason.message ++ ": " ++ position.describe
  | .tooManyDigits digits => tooManyDigitsMessage digits

end Json

end Splice
