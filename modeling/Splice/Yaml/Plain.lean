import Splice.Yaml.Quoted

/-!
# Plain scalars

A plain scalar has no quotes: it ends where something else may begin. It may go on over several
lines, whose breaks are folded as in quoted scalars.

* `Yaml.startsPlain` — may a plain scalar begin here; and
* `Yaml.plain` — the text of a scalar, with the place behind it.
-/

namespace Splice.Yaml

/-- Is the character one of the brackets and the comma that structure flow collections? -/
def isFlowSign (c : Char) : Bool := c = ',' || c = '[' || c = ']' || c = '{' || c = '}'

/-- Is the character one that may begin something other than a plain scalar? -/
def isIndicator (c : Char) : Bool := ("-?:,[]\x7b\x7d#&*!|>'\"%@\x60".toList).contains c

/-- May a plain scalar begin here? -/
def startsPlain (flow : Bool) : Text → Bool
  | [] => false
  | c :: rest =>
      (!isGap c && !isIndicator c)
        || (!endsOr isGap rest && (c = '-' || (!flow && (c = '?' || c = ':'))))

/-- The longest run of characters that belong to a plain scalar. A colon belongs to it unless it
ends a key. -/
def plainWord (flow : Bool) : Text → Text
  | [] => []
  | c :: rest =>
      if isGap c
          || (c = ':' && endsOr (fun d => isGap d || (flow && isFlowSign d)) rest)
          || (flow && (c = '?' || isFlowSign c)) then []
      else c :: plainWord flow rest

/-- The line breaks from here on, with spaces around them skipped; none if a mark begins a line. -/
def plainBreaks : (fuel : Nat) → Cursor → Option Text × Cursor
  | 0, cursor => (none, cursor)
  | fuel + 1, cursor =>
      if cursor.atMark then (none, cursor)
      else
        let cursor := cursor.skipSpaces
        match cursor.lineBreak? with
        | none => (some [], cursor)
        | some (c, cursor) =>
            let (breaks, cursor) := plainBreaks fuel cursor
            (breaks.map (c :: ·), cursor)

/-- What stands between two words of a plain scalar, whether it holds a line break, and the place
behind it. It is empty if the scalar cannot go on. -/
def plainGap (cursor : Cursor) : Text × Bool × Cursor :=
  let (spaces, cursor) := cursor.span (· = ' ')
  match cursor.lineBreak? with
  | none => (spaces, false, cursor)
  | some (c, cursor) =>
      let (breaks, cursor) := plainBreaks cursor.rest.length.succ cursor
      ((breaks.map (fold c ·)).getD [], true, cursor)

/-- The words of a plain scalar from the cursor on, whether what was last skipped holds a line
break, and the place behind it. `gap` stands before the first word. The scalar ends at a comment
and, outside flow collections, in a line that is not indented to the column `base`. -/
def plainFrom (flow : Bool) (base : Nat) :
    (fuel : Nat) → (gap : Text) → (broken : Bool) → Cursor → Text × Bool × Cursor
  | 0, _, broken, cursor => ([], broken, cursor)
  | fuel + 1, gap, broken, cursor =>
      let word := if startsWith (· = '#') cursor.rest then [] else plainWord flow cursor.rest
      if word.isEmpty then ([], broken, cursor)
      else
        let (next, broken, cursor) := plainGap (cursor.skip word.length)
        if next.isEmpty || startsWith (· = '#') cursor.rest || (!flow && cursor.column < base) then
          (gap ++ word, broken, cursor)
        else
          let (more, broken, cursor) := plainFrom flow base fuel next broken cursor
          (gap ++ word ++ more, broken, cursor)

/-- The text of a plain scalar, whether a line break follows it, and the place behind it. -/
def plain (flow : Bool) (base : Nat) (cursor : Cursor) : Text × Bool × Cursor :=
  plainFrom flow base cursor.rest.length.succ [] false cursor

end Splice.Yaml
