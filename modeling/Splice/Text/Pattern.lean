import Splice.Text.Segments

/-!
# Literal patterns

A search pattern is a text in which some characters are operators. A text is searched for as it
stands by a pattern in which a backslash takes the meaning from every character that may have one.

* `Pattern.escape` — the pattern that searches for a text as it stands;
* `Pattern.compile?` — a pattern without operators, with the characters that it matches; and
* `Pattern.sub` — a text with the matches of a pattern replaced.
-/

namespace Splice

/-- A pattern without operators. -/
structure Pattern where
  /-- The pattern as it is written. -/
  source : Text
  /-- The characters that it matches, one after the other. -/
  literal : Text
deriving DecidableEq, Repr

namespace Pattern

/-- The characters that have a meaning somewhere in a pattern: as an operator, within a class of
characters, or where white space and comments are left out. -/
def special : List Char :=
  ['(', ')', '[', ']', '{', '}', '?', '*', '+', '-', '|', '^', '$', '\\', '.', '&', '~', '#', ' ',
    '\t', '\n', '\r', '\x0b', '\x0c']

/-- The pattern that searches for a text as it stands. -/
def escape (text : Text) : Text := text.flatMap fun c => if c ∈ special then ['\\', c] else [c]

/-- The characters that are operators wherever they stand. -/
def operators : List Char := ['.', '\\', '[', '{', '(', ')', '*', '+', '?', '^', '$', '|']

/-- The characters that a pattern matches one after the other, unless it has an operator. Behind a
backslash, letters and digits name classes of characters and other things; any other character
stands for itself. -/
def literal? : Text → Option Text
  | [] => some []
  | ['\\'] => none
  | '\\' :: c :: pattern => if c.isAlphanum then none else (literal? pattern).map (c :: ·)
  | c :: pattern => if c ∈ operators then none else (literal? pattern).map (c :: ·)

/-- The compiled form of a pattern without operators. -/
def compile? (source : Text) : Option Pattern := (literal? source).map fun text => ⟨source, text⟩

/-- The text with each match of the pattern replaced by `value`, which is inserted as it stands. -/
def sub (pattern : Pattern) (value text : Text) : Text := Text.replace pattern.literal value text

example : compile? (escape "a.b") = some ⟨"a\\.b", "a.b"⟩ := by decide

end Pattern

end Splice
