import Splice.Text.Basic

/-!
# Positions in a text

A reader that fails gives the text that was left where it stopped. `Text.Position.ofRest` turns
that into an offset with its line and column; lines end at a line feed only, and lines and columns
count from one.
-/

namespace Splice.Text

/-- A place in a text. -/
structure Position where
  /-- The number of characters before the place. -/
  offset : Nat
  /-- The line, from one. -/
  line : Nat
  /-- The column, from one. -/
  column : Nat
deriving DecidableEq, Repr

namespace Position

/-- The place that lies behind `before`. -/
def ofBefore (before : Text) : Position where
  offset := before.length
  line := before.count '\n' + 1
  column := (before.reverse.takeWhile (· ≠ '\n')).length + 1

/-- The place in `whole` at which `rest`, one of its tails, begins. -/
def ofRest (whole rest : Text) : Position :=
  ofBefore (whole.take (whole.length - rest.length))

/-- The place in words. -/
def describe (p : Position) : Text :=
  "line " ++ ofNat p.line ++ " column " ++ ofNat p.column ++ " (char " ++ ofNat p.offset ++ ")"

end Position

end Splice.Text
