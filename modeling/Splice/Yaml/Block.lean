import Splice.Yaml.Cursor
import Splice.Yaml.Error

/-!
# Block scalars

A block scalar consists of the lines that are indented deeper than the collection around it. A
header says whether line breaks are kept or folded, how deep the lines are indented, and what
becomes of the line breaks at the end.

* `Yaml.BlockHeader` — what the header says; and
* `Yaml.block` — the text of a scalar, with the place behind it.
-/

namespace Splice.Yaml

/-- What becomes of the line breaks at the end of a block scalar. -/
inductive Chomping where
  /-- None is kept. -/
  | strip
  /-- One is kept. -/
  | clip
  /-- All are kept. -/
  | keep
deriving DecidableEq, Repr

/-- The header of a block scalar. -/
structure BlockHeader where
  /-- What becomes of the line breaks at the end. -/
  chomping : Chomping := .clip
  /-- By how much the lines are indented more than the collection around them, if that is given. -/
  indent : Option Nat := none
deriving DecidableEq, Repr

/-- The sign for a treatment of line breaks. -/
def chomping? : Char → Option Chomping
  | '+' => some .keep
  | '-' => some .strip
  | _ => none

/-- An amount by which lines are indented. -/
def indentDigit? (c : Char) : Option Nat :=
  if '1' ≤ c ∧ c ≤ '9' then some (c.toNat - '0'.toNat) else none

/-- The header at the cursor, and the place behind it. Its two parts stand in either order. -/
def blockHeader (cursor : Cursor) : BlockHeader × Cursor :=
  match cursor.rest with
  | [] => ({}, cursor)
  | c :: rest =>
      let second := rest.head?
      match chomping? c, indentDigit? c with
      | some chomping, _ =>
          match second.bind indentDigit? with
          | some n => (⟨chomping, some n⟩, cursor.skip 2)
          | none => (⟨chomping, none⟩, cursor.next)
      | none, some n =>
          match second.bind chomping? with
          | some chomping => (⟨chomping, some n⟩, cursor.skip 2)
          | none => (⟨.clip, some n⟩, cursor.next)
      | none, none => ({}, cursor)

/-- The blank lines at the beginning, the greatest column that their spaces reach, and the place
behind them. -/
def leadingBreaks : (fuel column : Nat) → Cursor → Text × Nat × Cursor
  | 0, column, cursor => ([], column, cursor)
  | fuel + 1, column, cursor =>
      if startsWith (· = ' ') cursor.rest then
        leadingBreaks fuel (max column cursor.next.column) cursor.next
      else
        match cursor.lineBreak? with
        | none => ([], column, cursor)
        | some (c, cursor) =>
            let (breaks, column, cursor) := leadingBreaks fuel column cursor
            (c :: breaks, column, cursor)

/-- The place behind spaces, but not beyond a column. -/
def skipIndent (column : Nat) (cursor : Cursor) : Cursor :=
  let spaces := (cursor.rest.takeWhile (· = ' ')).length
  cursor.skip (min spaces (column - cursor.column))

/-- The blank lines between lines that are indented to a column, and the place behind them. -/
def breaksWithin (column : Nat) : (fuel : Nat) → Cursor → Text × Cursor
  | 0, cursor => ([], cursor)
  | fuel + 1, cursor =>
      let cursor := skipIndent column cursor
      match cursor.lineBreak? with
      | none => ([], cursor)
      | some (c, cursor) =>
          let (breaks, cursor) := breaksWithin column fuel cursor
          (c :: breaks, cursor)

/-- What is kept of the last line break and of those that follow it. -/
def Chomping.apply (chomping : Chomping) (last breaks : Text) : Text :=
  match chomping with
  | .strip => []
  | .clip => last
  | .keep => last ++ breaks

/-- Does a line of the scalar begin here? -/
def atLine (column : Nat) (cursor : Cursor) : Bool :=
  cursor.column = column && !cursor.rest.isEmpty

/-- The lines from the cursor on, which is at the beginning of one. A folded line break between two
lines that do not begin with a blank becomes a space, or nothing if blank lines follow it. -/
def blockLines (folded : Bool) (chomping : Chomping) (column : Nat) :
    (fuel : Nat) → Cursor → Text × Cursor
  | 0, cursor => ([], cursor)
  | fuel + 1, cursor =>
      let (line, cursor) := cursor.span (!isBreak ·)
      let (last, cursor) : Text × Cursor := match cursor.lineBreak? with
        | some (c, cursor) => ([c], cursor)
        | none => ([], cursor)
      let (breaks, cursor) := breaksWithin column cursor.rest.length.succ cursor
      if atLine column cursor then
        -- A line that begins with a blank keeps the line breaks around it.
        let folds := folded && last = ['\n'] && !startsWith isBlank line
          && !startsWith isBlank cursor.rest
        let between := if folds then (if breaks.isEmpty then [' '] else []) else last
        let (more, cursor) := blockLines folded chomping column fuel cursor
        (line ++ between ++ breaks ++ more, cursor)
      else (line ++ chomping.apply last breaks, cursor)

/-- The text of a block scalar, and the place behind it. The cursor is at the indicator, and lines
are indented at least to the column `base`. -/
def block (folded : Bool) (base : Nat) (cursor : Cursor) : Except Error (Text × Cursor) :=
  let (header, cursor) := blockHeader cursor.next
  if !endsOr (fun c => c = ' ' || isBreak c) cursor.rest then .error .malformed
  else
    match cursor.endLine? with
    | none => .error .malformed
    | some cursor =>
        let fuel := cursor.rest.length.succ
        let least := max base 1
        let (breaks, column, cursor) : Text × Nat × Cursor :=
          match header.indent with
          | some n =>
              let column := least + n - 1
              let (breaks, cursor) := breaksWithin column fuel cursor
              (breaks, column, cursor)
          | none =>
              -- The first line that is not blank says how deep the text is indented.
              let (breaks, column, cursor) := leadingBreaks fuel 0 cursor
              (breaks, max least column, cursor)
        if atLine column cursor then
          let (text, cursor) := blockLines folded header.chomping column fuel cursor
          .ok (breaks ++ text, cursor)
        else .ok (header.chomping.apply [] breaks, cursor)

end Splice.Yaml
