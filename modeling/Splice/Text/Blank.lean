import Splice.Text.Basic

/-!
# Blank characters

The white space of the directive grammar and of template tags: the characters with the Unicode
property `White_Space`, and the four information separators U+001C to U+001F.

* `Text.isBlank` — the class;
* `Text.dropBlank` — a text without the blanks in front; and
* `Text.words` — the maximal runs of characters that are not blank.
-/

namespace Splice.Text

/-- Is the character white space? -/
def isBlank (c : Char) : Bool :=
  let n := c.toNat
  (9 ≤ n && n ≤ 13) || (28 ≤ n && n ≤ 32) || n == 0x85 || n == 0xa0 || n == 0x1680
    || (0x2000 ≤ n && n ≤ 0x200a) || n == 0x2028 || n == 0x2029 || n == 0x202f || n == 0x205f
    || n == 0x3000

/-- The text without its leading blanks. -/
def dropBlank (text : Text) : Text := text.dropWhile isBlank

/-- The maximal runs of characters that are not blank. -/
def words (text : Text) : List Text :=
  go [] text
where
  /-- Collects the word under way, last character first. -/
  go (word : Text) : Text → List Text
    | [] => if word.isEmpty then [] else [word.reverse]
    | c :: text =>
        if isBlank c then
          if word.isEmpty then go [] text else word.reverse :: go [] text
        else go (c :: word) text

end Splice.Text
