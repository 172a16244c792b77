import Splice.Json.Basic
import Splice.Number.Shortest

/-!
# Writing JSON

Values are written without white space. In strings only the double quote, the backslash and the
characters below U+0020 are escaped; everything else stands as it is.

* `Json.writeString` — a string in its quotes; and
* `Json.write` — a whole value.
-/

namespace Splice.Json

/-- Numbers keep a point or an exponent; leading digits from `10 ^ -4` to `10 ^ 15` are written
without an exponent. -/
def floatStyle : Double.Style where
  nan := "NaN"
  infinity := "Infinity"
  leastPositional := -4
  greatestPositional := 15

/-- A character as it stands inside a string. -/
def escape (c : Char) : Text :=
  match c with
  | '"' => "\\\""
  | '\\' => "\\\\"
  | '\n' => "\\n"
  | '\r' => "\\r"
  | '\t' => "\\t"
  | '\x0c' => "\\f"
  | '\x08' => "\\b"
  | c => if c.toNat < 0x20 then "\\u" ++ Text.ofHex 4 c.toNat else [c]

/-- A string in its quotes. -/
def writeString (text : Text) : Text := '"' :: text.flatMap escape ++ ['"']

mutual

/-- A value without white space. -/
def write : Json → Text
  | .null => "null"
  | .bool b => if b then "true" else "false"
  | .int n => Text.ofInt n
  | .float x => x.write floatStyle
  | .str text => writeString text
  | .arr items => '[' :: writeItems items ++ [']']
  | .obj fields => '{' :: writeFields fields ++ ['}']

/-- Items with commas between them. -/
def writeItems : List Json → Text
  | [] => []
  | [item] => write item
  | item :: next :: items => write item ++ ',' :: writeItems (next :: items)

/-- Fields with commas between them. -/
def writeFields : List (Text × Json) → Text
  | [] => []
  | [(name, value)] => writeString name ++ ':' :: write value
  | (name, value) :: next :: fields =>
      writeString name ++ ':' :: write value ++ ',' :: writeFields (next :: fields)

end

end Splice.Json
