import Splice.Text.Basic

/-!
# Wildcards

A wildcard pattern describes names: `*` stands for any text, `?` for any character, and a set in
brackets for one of its members, or for any other character if it begins with an exclamation mark.
A bracket that is never closed, and every other character, stands for itself.

* `Wildcard` — a pattern as a list of pieces, and `Wildcard.ofText` — the pattern that a text
  spells;
* `Wildcard.fits` — does a name fit a pattern?
-/

namespace Splice

/-- The members of a set in brackets: single characters and closed ranges. -/
structure CharSet where
  /-- Does the set stand for all other characters? -/
  negated : Bool
  /-- The single characters. -/
  chars : Text
  /-- The ends of the ranges. -/
  ranges : List (Char × Char)
deriving DecidableEq, Repr

namespace CharSet

/-- Does the set stand for the character? -/
def fits (set : CharSet) (c : Char) : Bool :=
  let member := set.chars.contains c
    || set.ranges.any fun (low, high) => decide (low.val ≤ c.val) && decide (c.val ≤ high.val)
  member != set.negated

/-- Cuts the members of a set at the hyphens that make ranges. A hyphen makes a range if at least
`lead` characters precede it in its piece; after a range the next piece has two at least. -/
def cutAtHyphens (lead : Nat) (piece : Text) : Text → List Text
  | [] => [piece.reverse]
  | c :: text =>
      if c = '-' ∧ lead ≤ piece.length then piece.reverse :: cutAtHyphens 2 [] text
      else cutAtHyphens lead (c :: piece) text

/-- A hyphen at the end of a set is a member: it makes no range. -/
def keepLastHyphen (pieces : List Text) : List Text :=
  match pieces.reverse with
  | [] :: last :: before => ((last ++ ['-']) :: before).reverse
  | _ => pieces

/-- Joins the pieces on either side of a range whose ends are not in order, without these ends. The
ranges are looked at from the last to the first. -/
def dropEmptyRanges : List Text → List Text
  | [] => []
  | piece :: pieces =>
      match dropEmptyRanges pieces with
      | [] => [piece]
      | next :: rest =>
          match piece.getLast?, next.head? with
          | some low, some high =>
              if high.val < low.val then (piece.dropLast ++ next.drop 1) :: rest
              else piece :: next :: rest
          | _, _ => piece :: next :: rest

/-- The ranges between neighbouring pieces. -/
def rangesBetween : List Text → List (Char × Char)
  | piece :: next :: rest =>
      match piece.getLast?, next.head? with
      | some low, some high => (low, high) :: rangesBetween (next :: rest)
      | _, _ => rangesBetween (next :: rest)
  | _ => []

/-- The set that the text between brackets spells. An exclamation mark at its beginning, looked for
after empty ranges are gone, negates it. -/
def ofText (inside : Text) : CharSet :=
  let lead := if inside.head? = some '!' then 2 else 1
  let pieces := dropEmptyRanges (keepLastHyphen (cutAtHyphens lead [] inside))
  match pieces with
  | ('!' :: first) :: rest => ⟨true, first ++ rest.flatten, rangesBetween (first :: rest)⟩
  | _ => ⟨false, pieces.flatten, rangesBetween pieces⟩

end CharSet

/-- A piece of a wildcard pattern. -/
inductive Wildcard.Piece where
  /-- Any text. -/
  | star
  /-- Any character. -/
  | any
  /-- This character. -/
  | char (c : Char)
  /-- A character of a set. -/
  | set (s : CharSet)
deriving DecidableEq, Repr

/-- A wildcard pattern. -/
abbrev Wildcard := List Wildcard.Piece

namespace Wildcard

/-- The text between brackets and what follows it, given the text behind the opening bracket. A
closing bracket that comes first, also behind an exclamation mark, is a member. -/
def readSet? (text : Text) : Option (Text × Text) :=
  let (mark, text) := match text with
    | '!' :: rest => (['!'], rest)
    | _ => ([], text)
  let (first, text) := match text with
    | ']' :: rest => ([']'], rest)
    | _ => ([], text)
  (Text.cut? ']' text).map fun (inside, rest) => (mark ++ first ++ inside, rest)

/-- The pieces of a pattern. While `skip` is positive the characters belong to a set. -/
def ofTextAux (skip : Nat) : Text → Wildcard
  | [] => []
  | c :: text =>
      match skip with
      | skip + 1 => ofTextAux skip text
      | 0 =>
          if c = '*' then .star :: ofTextAux 0 text
          else if c = '?' then .any :: ofTextAux 0 text
          else if c = '[' then
            match readSet? text with
            | some (inside, _) => .set (.ofText inside) :: ofTextAux (inside.length + 1) text
            | none => .char c :: ofTextAux 0 text
          else .char c :: ofTextAux 0 text

/-- The pattern that a text spells. -/
def ofText (text : Text) : Wildcard := ofTextAux 0 text

/-- Does some tail of the text pass the test? -/
def anyTail (test : Text → Bool) : Text → Bool
  | [] => test []
  | c :: text => test (c :: text) || anyTail test text

/-- Does the name fit the pattern? -/
def fits : Wildcard → Text → Bool
  | [], name => name.isEmpty
  | .star :: pieces, name => anyTail (fits pieces) name
  | .any :: pieces, name =>
      match name with
      | [] => false
      | _ :: name => fits pieces name
  | .char c :: pieces, name =>
      match name with
      | [] => false
      | d :: name => c == d && fits pieces name
  | .set s :: pieces, name =>
      match name with
      | [] => false
      | d :: name => s.fits d && fits pieces name

/-- Does the text hold a character that makes it a pattern? -/
def isPattern (text : Text) : Bool := text.any fun c => c = '*' || c = '?' || c = '['

example : fits (ofText "a*[c-a]") "abc" = false := by decide

example : fits (ofText "[!]a]*.?") "b.x" = true := by decide

end Wildcard

end Splice
