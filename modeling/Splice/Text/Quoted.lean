import Splice.Text.Printable

/-!
# Quoted text

The form in which a text is shown inside a list, a mapping or a message.

* `Text.quote` — in single quotes, or in double quotes if the text holds a single quote and no
  double one. The quote in use and the backslash take a backslash; line feed, carriage return and
  tab are `\\n`, `\\r`, `\\t`; other characters that are not printable are `\\xNN`, `\\uNNNN` or
  `\\UNNNNNNNN`, the shortest that fits.
* `Text.quoteBytes` — bytes in the same manner after the letter `b`, where everything outside the
  printable ASCII characters is `\\xNN`.
-/

namespace Splice.Text

/-- The quote that `quote` puts around a text. -/
def quoteFor (text : Text) : Char :=
  if text.contains '\'' && !text.contains '"' then '"' else '\''

/-- A code point as the shortest of the three numeric escapes. -/
def numericEscape (n : Nat) : Text :=
  if n < 0x100 then '\\' :: 'x' :: ofHex 2 n
  else if n < 0x10000 then '\\' :: 'u' :: ofHex 4 n
  else '\\' :: 'U' :: ofHex 8 n

/-- The escape of a character, if it has one whatever the class of printable characters. -/
def shortEscape? (mark c : Char) : Option Text :=
  if c = mark || c = '\\' then some ['\\', c]
  else match c with
    | '\n' => some ['\\', 'n']
    | '\r' => some ['\\', 'r']
    | '\t' => some ['\\', 't']
    | _ => none

/-- The text in quotes, with its escapes. -/
def quote (text : Text) : Text :=
  let mark := quoteFor text
  let shown := text.flatMap fun c =>
    match shortEscape? mark c with
    | some escape => escape
    | none => if isPrintable c then [c] else numericEscape c.toNat
  mark :: shown ++ [mark]

/-- Bytes in quotes, with their escapes. -/
def quoteBytes (bytes : List UInt8) : Text :=
  let text := bytes.map fun b => Char.ofNat b.toNat
  let mark := quoteFor text
  let shown := text.flatMap fun c =>
    match shortEscape? mark c with
    | some escape => escape
    | none => if 32 ≤ c.toNat ∧ c.toNat < 127 then [c] else numericEscape c.toNat
  'b' :: mark :: shown ++ [mark]

example : quote "it's" = ("\"it's\"" : Text) := by decide

example : quote "a'\"\n" = ("'a\\'\"\\n'" : Text) := by decide

end Splice.Text
