import Splice.Json.Basic
import Splice.Text.Quoted
import Splice.Value.Moment

/-!
# What is wrong with a document

Almost all faults of a document count as one: it is malformed, and the reader is not told how. Only
the scalars of some types say what is wrong with them.

* `Yaml.Error` — the faults; and
* `Yaml.Error.message` — their wording.
-/

namespace Splice.Yaml

/-- What is wrong with a document. -/
inductive Error where
  /-- The document breaks a rule of the format. -/
  | malformed
  /-- An escape names a number that is no code point. -/
  | noSuchCharacter
  /-- An escape names a number that does not fit 31 bits. -/
  | numberTooLarge
  /-- A date or a time has a field that is out of range. -/
  | moment (error : MomentError)
  /-- A text that is to be a time has not the form of one. -/
  | notATime
  /-- A text that is to be an integer has not the form of one in this base. -/
  | notAnInteger (base : Nat) (text : Text)
  /-- An integer has more decimal digits than are read. -/
  | tooManyDigits (count : Nat)
  /-- A text that is to be a number has not the form of one. -/
  | notANumber (text : Text)
  /-- A number has no characters at all. -/
  | noDigits
  /-- A text that is to be a truth value is none. -/
  | notATruthValue (text : Text)
deriving DecidableEq, Repr

/-- The wording of a fault. At most 200 characters of what should be an integer are given. -/
def Error.message : Error → Text
  | .malformed => "malformed document"
  | .noSuchCharacter => "chr() arg not in range(0x110000)"
  | .numberTooLarge => "Python int too large to convert to C int"
  | .moment error => error.message
  | .notATime => "'NoneType' object has no attribute 'groupdict'"
  | .notAnInteger base text =>
      "invalid literal for int() with base " ++ Text.ofNat base ++ ": "
        ++ (Text.quote text).take 200
  | .tooManyDigits count => Json.tooManyDigitsMessage count
  | .notANumber text => "could not convert string to float: " ++ Text.quote text
  | .noDigits => "string index out of range"
  | .notATruthValue text => Text.quote text

end Splice.Yaml
