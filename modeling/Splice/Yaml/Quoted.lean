import Splice.Yaml.Cursor
import Splice.Yaml.Error

/-!
# Quoted scalars

A scalar in single quotes has one escape, the doubled quote; one in double quotes has those of a
backslash. Within both, a line break with the blanks around it is folded: a single one becomes a
space, and of several ones the first is dropped.

* `Yaml.Quote` — the kinds of quotes; and
* `Yaml.quoted` — the text of a scalar, with the place behind it.
-/

namespace Splice.Yaml

/-- The kinds of quotes. -/
inductive Quote where
  /-- A single quote. -/
  | single
  /-- A double quote. -/
  | double
deriving DecidableEq, Repr

/-- The quote as a character. -/
def Quote.char : Quote → Char
  | .single => '\''
  | .double => '"'

/-- What a character stands for behind a backslash. -/
def escapes : List (Char × Char) := [
  ('0', '\x00'), ('a', '\x07'), ('b', '\x08'), ('t', '\t'), ('\t', '\t'), ('n', '\n'),
  ('v', '\x0b'), ('f', '\x0c'), ('r', '\r'), ('e', '\x1b'), (' ', ' '), ('"', '"'),
  ('\\', '\\'), ('/', '/'), ('N', '\u0085'), ('_', '\u00a0'), ('L', '\u2028'), ('P', '\u2029')]

/-- The number of hexadecimal digits that follow a character behind a backslash. -/
def escapeWidth? : Char → Option Nat
  | 'x' => some 2
  | 'u' => some 4
  | 'U' => some 8
  | _ => none

/-- The character with a code point. Half of a surrogate pair is no character and is replaced. -/
def charOf (n : Nat) : Except Error Char :=
  if 0x7fffffff < n then .error .numberTooLarge
  else if 0x10ffff < n then .error .noSuchCharacter
  else if 0xd800 ≤ n ∧ n ≤ 0xdfff then .ok '\uFFFD'
  else .ok (Char.ofNat n)

/-- The number that the next `width` characters spell as hexadecimal digits. -/
def hexNumber (width : Nat) (text : Text) : Except Error Nat :=
  match (text.take width).mapM Text.hexDigit? with
  | some digits =>
      if digits.length = width then .ok (Text.digitsValue 16 digits) else .error .malformed
  | none => .error .malformed

/-- The line breaks from here on, with the blanks before and behind them skipped. No mark may stand
at the beginning of a line. -/
def furtherBreaks : (fuel : Nat) → Cursor → Except Error (Text × Cursor)
  | 0, _ => .error .malformed
  | fuel + 1, cursor =>
      if cursor.atMark then .error .malformed
      else
        let cursor := cursor.skipWhile isBlank
        match cursor.lineBreak? with
        | none => .ok ([], cursor)
        | some (c, cursor) => do
            let (breaks, cursor) ← furtherBreaks fuel cursor
            return (c :: breaks, cursor)

/-- What becomes of a line break and those that follow it: one line feed is a space, and of several
line breaks the first is dropped if it is a line feed. -/
def fold (first : Char) (breaks : Text) : Text :=
  if first ≠ '\n' then first :: breaks else if breaks.isEmpty then [' '] else breaks

/-- Blanks or line breaks inside a scalar. -/
def quotedGap (fuel : Nat) (cursor : Cursor) : Except Error (Text × Cursor) :=
  let (blanks, cursor) := cursor.span isBlank
  match cursor.lineBreak? with
  | none => .ok (blanks, cursor)
  | some (c, cursor) => do
      let (breaks, cursor) ← furtherBreaks fuel cursor
      return (fold c breaks, cursor)

/-- What an escape stands for. The cursor is behind the backslash. -/
def escaped (fuel : Nat) (cursor : Cursor) : Except Error (Text × Cursor) :=
  match cursor.rest with
  | [] => .error .malformed
  | c :: rest =>
      match escapes.lookup c, escapeWidth? c, cursor.lineBreak? with
      | some d, _, _ => .ok ([d], cursor.next)
      | none, some width, _ => do
          let d ← charOf (← hexNumber width rest)
          return ([d], cursor.next.skip width)
      | none, none, some (_, cursor) => furtherBreaks fuel cursor
      | none, none, none => .error .malformed

/-- The text of a scalar from the cursor on up to its closing quote, and the place behind that. -/
def quotedFrom (quote : Quote) : (fuel : Nat) → Cursor → Except Error (Text × Cursor)
  | 0, _ => .error .malformed
  | fuel + 1, cursor =>
      let piece : Except Error (Option Text × Cursor) :=
        match cursor.rest with
        | [] => .error .malformed
        | c :: rest =>
            if isGap c then (quotedGap fuel cursor).map fun (text, cursor) => (some text, cursor)
            else if c = quote.char then
              -- Two single quotes stand for one.
              if quote = .single ∧ startsWith (· = '\'') rest then .ok (some ['\''], cursor.skip 2)
              else .ok (none, cursor.next)
            else if quote = .double ∧ c = '\\' then
              (escaped fuel cursor.next).map fun (text, cursor) => (some text, cursor)
            else .ok (some [c], cursor.next)
      match piece with
      | .error e => .error e
      | .ok (none, cursor) => .ok ([], cursor)
      | .ok (some text, cursor) => do
          let (more, cursor) ← quotedFrom quote fuel cursor
          return (text ++ more, cursor)

/-- The text of a quoted scalar, and the place behind it. The cursor is at the opening quote. -/
def quoted (quote : Quote) (cursor : Cursor) : Except Error (Text × Cursor) :=
  quotedFrom quote cursor.rest.length cursor.next

end Splice.Yaml
