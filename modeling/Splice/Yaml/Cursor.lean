import Splice.Text.Basic

/-!
# Cursors

Where a line stands and how far it is indented decides what a document means, so a reader carries
its line and column with the text that is left.

* `Yaml.isBreak`, `Yaml.isBlank`, `Yaml.isGap` — the characters that end lines or keep words apart;
* `Yaml.isPrintable` — the characters of which documents may consist; and
* `Yaml.Cursor` — a place in a document, and the ways forward from it.
-/

namespace Splice.Yaml

/-! ## Classes of characters -/

/-- Does the character end a line? -/
def isBreak (c : Char) : Bool := c = '\n' || c = '\u0085' || c = '\u2028' || c = '\u2029'

/-- Is the character a space or a tab? -/
def isBlank (c : Char) : Bool := c = ' ' || c = '\t'

/-- Does the character keep words apart? -/
def isGap (c : Char) : Bool := isBlank c || isBreak c

/-- May the character stand in a document? -/
def isPrintable (c : Char) : Bool :=
  let n := c.toNat
  n = 9 || n = 10 || n = 13 || (0x20 ≤ n && n ≤ 0x7e) || n = 0x85 || (0xa0 ≤ n && n ≤ 0xfffd)
    || 0x10000 ≤ n

/-- Is the character an ASCII letter or digit, a hyphen or an underscore? -/
def isNameChar (c : Char) : Bool := c.isAlphanum || c = '-' || c = '_'

/-- Does the text end here, or go on with a character of the class? -/
def endsOr (p : Char → Bool) : Text → Bool
  | [] => true
  | c :: _ => p c

/-- Does the text go on with a character of the class? -/
def startsWith (p : Char → Bool) : Text → Bool
  | [] => false
  | c :: _ => p c

/-! ## Cursors -/

/-- A place in a document. -/
structure Cursor where
  /-- The text behind it. -/
  rest : Text
  /-- The number of characters before it. -/
  index : Nat := 0
  /-- The number of lines before its own. -/
  line : Nat := 0
  /-- The number of characters before it in its line. -/
  column : Nat := 0

namespace Cursor

/-- The place behind the next character. A byte order mark takes no column. -/
def next (cursor : Cursor) : Cursor :=
  match cursor.rest with
  | [] => cursor
  | c :: rest =>
      if isBreak c then ⟨rest, cursor.index + 1, cursor.line + 1, 0⟩
      else
        let column := if c = '\uFEFF' then cursor.column else cursor.column + 1
        ⟨rest, cursor.index + 1, cursor.line, column⟩

/-- The place behind a number of characters. -/
def skip : Nat → Cursor → Cursor
  | 0, cursor => cursor
  | n + 1, cursor => skip n cursor.next

/-- The longest run of characters of a class, and the place behind it. -/
def span (p : Char → Bool) (cursor : Cursor) : Text × Cursor :=
  let run := cursor.rest.takeWhile p
  (run, cursor.skip run.length)

/-- The place behind the longest run of characters of a class. -/
def skipWhile (p : Char → Bool) (cursor : Cursor) : Cursor := (cursor.span p).2

/-- The place behind spaces. -/
def skipSpaces (cursor : Cursor) : Cursor := cursor.skipWhile (· = ' ')

/-- The place behind a comment, if there is one. -/
def skipComment (cursor : Cursor) : Cursor :=
  if startsWith (· = '#') cursor.rest then cursor.skipWhile (!isBreak ·) else cursor

/-- The end of a line and the place behind it. The control character for a next line counts as a
line feed; the separators of Unicode stay what they are. -/
def lineBreak? (cursor : Cursor) : Option (Char × Cursor) :=
  match cursor.rest with
  | [] => none
  | c :: _ => if isBreak c then some (if c = '\u0085' then '\n' else c, cursor.next) else none

/-- Does a word stand here by itself? -/
def atWord (word : Text) (cursor : Cursor) : Bool :=
  match Text.dropLead? word cursor.rest with
  | none => false
  | some rest => endsOr isGap rest

/-- Does a mark stand here that begins or ends a document? -/
def atMark (cursor : Cursor) : Bool := cursor.atWord "---" || cursor.atWord "..."

/-- The place behind the rest of a line, which has to be blank but for a comment. -/
def endLine? (cursor : Cursor) : Option Cursor :=
  let cursor := cursor.skipSpaces.skipComment
  match cursor.lineBreak? with
  | some (_, cursor) => some cursor
  | none => if cursor.rest.isEmpty then some cursor else none

end Cursor

end Splice.Yaml
