import Splice.Yaml.Block
import Splice.Yaml.Plain
import Splice.Yaml.Property

/-!
# Tokens

A document is cut into tokens from the left. Indentation becomes tokens as well: a block collection
begins where a line is indented deeper and ends where one is indented less. What turns out to be a
key only when its colon is reached gets its token afterwards.

* `Yaml.Token` — the tokens;
* `Yaml.Scanner` — a scan under way, and `Yaml.Scanner.fetch?` — one step of it; and
* `Yaml.Scan` with `Yaml.scan` — all tokens of a document.
-/

namespace Splice.Yaml

/-- The smallest units of a document. -/
inductive Token where
  /-- The end of the text. -/
  | streamEnd
  /-- A directive. -/
  | directive (said : Directive)
  /-- The mark before a document. -/
  | documentStart
  /-- The mark behind a document. -/
  | documentEnd
  /-- The indentation of a block sequence begins. -/
  | blockSequence
  /-- The indentation of a block mapping begins. -/
  | blockMapping
  /-- The indentation of a block collection ends. -/
  | blockEnd
  /-- The opening bracket of a flow sequence. -/
  | flowSequence
  /-- The closing bracket of a flow sequence. -/
  | flowSequenceEnd
  /-- The opening brace of a flow mapping. -/
  | flowMapping
  /-- The closing brace of a flow mapping. -/
  | flowMappingEnd
  /-- The hyphen before an item. -/
  | blockEntry
  /-- The comma between items. -/
  | flowEntry
  /-- The beginning of a key. -/
  | key
  /-- The colon before a value. -/
  | value
  /-- An alias. -/
  | alias (name : Text)
  /-- An anchor. -/
  | anchor (name : Text)
  /-- A tag. -/
  | tag (name : TagName)
  /-- A scalar, which may be plain. -/
  | scalar (text : Text) (isPlain : Bool)
deriving DecidableEq, Repr

/-! ## The state of a scan -/

/-- A token that may turn out to begin a key. -/
structure PossibleKey where
  /-- The number of tokens before it. -/
  number : Nat
  /-- Has it to be a key? -/
  required : Bool
  /-- Where it begins. -/
  place : Cursor

/-- A scan under way. -/
structure Scanner where
  /-- The place that has been reached. -/
  cursor : Cursor
  /-- The tokens so far, the last one first. -/
  tokens : List Token := []
  /-- The columns of the block collections that are open, the innermost first. -/
  columns : List Nat := []
  /-- May a key begin here? -/
  keyAllowed : Bool := true
  /-- What may turn out to be a key in the innermost collection. -/
  possible : Option PossibleKey := none
  /-- What may turn out to be a key around each of the flow collections that are open, the innermost
  first. -/
  outer : List (Option PossibleKey) := []

namespace Scanner

/-- Is the place inside a flow collection? -/
def inFlow (s : Scanner) : Bool := !s.outer.isEmpty

/-- The column to which the contents of the innermost block collection are indented at least. -/
def base (s : Scanner) : Nat :=
  match s.columns with
  | [] => 0
  | column :: _ => column + 1

/-- Adds a token. -/
def push (s : Scanner) (token : Token) : Scanner := { s with tokens := token :: s.tokens }

/-- Adds a token of some characters. -/
def take (s : Scanner) (token : Token) (width : Nat) : Scanner :=
  { s.push token with cursor := s.cursor.skip width }

/-- Adds a token behind the first `number` ones. -/
def insert (s : Scanner) (number : Nat) (token : Token) : Scanner :=
  let later := s.tokens.length - number
  { s with tokens := s.tokens.take later ++ token :: s.tokens.drop later }

/-- Has a possible key become impossible? A key is not longer than a line, nor than 1024
characters. -/
def isStale (s : Scanner) (key : PossibleKey) : Bool :=
  key.place.line != s.cursor.line || decide (1024 < s.cursor.index - key.place.index)

/-- The possible key, if it still is one. -/
def refreshed (s : Scanner) : Option PossibleKey → Except Error (Option PossibleKey)
  | none => .ok none
  | some key =>
      if s.isStale key then (if key.required then .error .malformed else .ok none)
      else .ok (some key)

/-- Forgets the possible keys that have become impossible. -/
def dropStale (s : Scanner) : Except Error Scanner := do
  let possible ← s.refreshed s.possible
  let outer ← s.outer.mapM s.refreshed
  return { s with possible, outer }

/-- Forgets the possible key of the innermost collection. -/
def dropKey (s : Scanner) : Except Error Scanner :=
  match s.possible with
  | some key => if key.required then .error .malformed else .ok { s with possible := none }
  | none => .ok s

/-- Notes that the next token may turn out to begin a key. In a block mapping, what stands in the
column of its keys has to be one. -/
def noteKey (s : Scanner) : Except Error Scanner :=
  if s.keyAllowed then do
    let required := !s.inFlow && s.base = s.cursor.column + 1
    let s ← s.dropKey
    return { s with possible := some ⟨s.tokens.length, required, s.cursor⟩ }
  else .ok s

/-- Ends the block collections of the given columns that are not deeper than `column`. -/
def closeBlocks (column : Option Nat) : List Nat → List Token → List Nat × List Token
  | [], tokens => ([], tokens)
  | c :: columns, tokens =>
      if column.all (· < c) then closeBlocks column columns (.blockEnd :: tokens)
      else (c :: columns, tokens)

/-- Ends the block collections that are indented deeper than a column, or all of them. -/
def unwind (s : Scanner) (column : Option Nat) : Scanner :=
  if s.inFlow then s
  else
    let (columns, tokens) := closeBlocks column s.columns s.tokens
    { s with columns, tokens }

/-- Begins a block collection behind the first `number` tokens if the column is deeper than that of
the innermost one. -/
def indent (s : Scanner) (column number : Nat) (token : Token) : Scanner :=
  if s.base ≤ column then { s.insert number token with columns := column :: s.columns } else s

/-! ## Steps -/

/-- Spaces, comments and line breaks are skipped. Outside flow collections, a key may begin in a new
line. -/
def skipGap : (fuel : Nat) → Scanner → Scanner
  | 0, s => s
  | fuel + 1, s =>
      let cursor := s.cursor.skipSpaces.skipComment
      match cursor.lineBreak? with
      | none => { s with cursor }
      | some (_, cursor) => skipGap fuel { s with cursor, keyAllowed := s.keyAllowed || !s.inFlow }

/-- The scanner at the next token. -/
def advance (s : Scanner) : Except Error Scanner := do
  let marked := s.cursor.index = 0 && startsWith (· = '\uFEFF') s.cursor.rest
  let s := if marked then { s with cursor := s.cursor.next } else s
  let s ← (skipGap s.cursor.rest.length.succ s).dropStale
  return s.unwind (some s.cursor.column)

/-- Ends all block collections, as before a mark or a directive. -/
def leave (s : Scanner) : Except Error Scanner := do
  let s ← (s.unwind none).dropKey
  return { s with keyAllowed := false }

/-- The opening of a flow collection. -/
def openFlow (s : Scanner) (token : Token) : Except Error Scanner := do
  let s ← s.noteKey
  return { s.take token 1 with
    keyAllowed := true, possible := none, outer := s.possible :: s.outer }

/-- The closing of a flow collection. -/
def closeFlow (s : Scanner) (token : Token) : Except Error Scanner := do
  let s ← s.dropKey
  match s.outer with
  | [] => throw .malformed
  | possible :: outer => return { s.take token 1 with keyAllowed := false, possible, outer }

/-- An item or an explicit key in a block collection of the given kind: it may open the
collection. -/
def openBlock (s : Scanner) (token : Token) : Except Error Scanner :=
  if s.inFlow then .ok s
  else if s.keyAllowed then .ok (s.indent s.cursor.column s.tokens.length token)
  else .error .malformed

/-- The hyphen before an item. -/
def fetchEntry (s : Scanner) : Except Error Scanner := do
  let s ← s.openBlock .blockSequence
  let s ← s.dropKey
  return { s.take .blockEntry 1 with keyAllowed := true }

/-- The question mark before a key. -/
def fetchKey (s : Scanner) : Except Error Scanner := do
  let s ← s.openBlock .blockMapping
  let s ← s.dropKey
  return { s.take .key 1 with keyAllowed := !s.inFlow }

/-- The colon before a value. What could be a key before it is one. -/
def fetchValue (s : Scanner) : Except Error Scanner :=
  match s.possible with
  | some key =>
      let s := s.insert key.number .key
      let s := if s.inFlow then s else s.indent key.place.column key.number .blockMapping
      .ok { s.take .value 1 with possible := none, keyAllowed := false }
  | none => do
      let s ← s.openBlock .blockMapping
      return { s.take .value 1 with keyAllowed := !s.inFlow }

/-- The comma between items. -/
def fetchComma (s : Scanner) : Except Error Scanner := do
  let s ← s.dropKey
  return { s.take .flowEntry 1 with keyAllowed := true }

/-- A token that may begin a key. -/
def fetchNode {α : Type} (s : Scanner) (read : Cursor → Except Error (α × Cursor))
    (token : α → Token) : Except Error Scanner := do
  let s ← s.noteKey
  let (content, cursor) ← read s.cursor
  return { s.push (token content) with cursor, keyAllowed := false }

/-- A block scalar. -/
def fetchBlock (s : Scanner) (folded : Bool) : Except Error Scanner := do
  let s ← s.dropKey
  let (text, cursor) ← block folded s.base s.cursor
  return { s.push (.scalar text false) with cursor, keyAllowed := true }

/-- A plain scalar. A key may begin in a new line behind it. -/
def fetchPlain (s : Scanner) : Except Error Scanner := do
  let s ← s.noteKey
  let (text, broken, cursor) := plain s.inFlow s.base s.cursor
  return { s.push (.scalar text true) with cursor, keyAllowed := broken }

/-- A directive or a mark at the beginning of a line, if there is one. -/
def fetchMark? (s : Scanner) : Option (Except Error Scanner) :=
  let mark (token : Token) : Except Error Scanner := do return (← s.leave).take token 3
  if s.cursor.column ≠ 0 then none
  else if startsWith (· = '%') s.cursor.rest then some do
    let s ← s.leave
    let (said, cursor) ← directive s.cursor
    return { s.push (.directive said) with cursor }
  else if s.cursor.atWord "---" then some (mark .documentStart)
  else if s.cursor.atWord "..." then some (mark .documentEnd)
  else none

/-- The token that begins with the character `c`, which is followed by `rest`. -/
def fetchAt (s : Scanner) (c : Char) (rest : Text) : Except Error Scanner :=
  let alone := endsOr isGap rest
  match c with
  | '[' => s.openFlow .flowSequence
  | '{' => s.openFlow .flowMapping
  | ']' => s.closeFlow .flowSequenceEnd
  | '}' => s.closeFlow .flowMappingEnd
  | ',' => s.fetchComma
  | '*' => s.fetchNode anchorName .alias
  | '&' => s.fetchNode anchorName .anchor
  | '!' => s.fetchNode tagName .tag
  | '\'' => s.fetchNode (quoted .single) (.scalar · false)
  | '"' => s.fetchNode (quoted .double) (.scalar · false)
  | _ =>
      -- Outside of flow collections, these signs count only before a gap.
      if c = '-' ∧ alone then s.fetchEntry
      else if c = '?' ∧ (s.inFlow ∨ alone) then s.fetchKey
      else if c = ':' ∧ (s.inFlow ∨ alone) then s.fetchValue
      else if (c = '|' ∨ c = '>') ∧ !s.inFlow then s.fetchBlock (c = '>')
      else if startsPlain s.inFlow (c :: rest) then s.fetchPlain
      else .error .malformed

/-- The scanner behind the next token, or none at the end of the text. -/
def fetch? (s : Scanner) : Except Error (Option Scanner) := do
  let s ← s.advance
  match s.cursor.rest with
  | [] => return none
  | c :: rest =>
      match s.fetchMark? with
      | some fetched => return some (← fetched)
      | none => return some (← s.fetchAt c rest)

/-- The scanner at the end of the text. -/
def finish (s : Scanner) : Except Error Scanner := do
  let s ← s.advance
  let s ← s.leave
  return s.push .streamEnd

end Scanner

/-! ## All tokens -/

/-- The tokens of a document, in order, and what ended them early. -/
structure Scan where
  /-- The tokens. -/
  tokens : List Token
  /-- The fault behind the last of them. -/
  fault : Option Error

namespace Scanner

/-- The tokens up to a fault. What may turn out to begin a key is not known for what it is, and so
neither is anything behind it. -/
def stop (s : Scanner) (fault : Error) : Scan :=
  let keys := (s.possible :: s.outer).filterMap fun key => key.filter (!s.isStale ·)
  let known := keys.foldl (fun number key => min number key.number) s.tokens.length
  ⟨s.tokens.reverse.take known, some fault⟩

/-- The tokens from the scanner's place on, together with those it has. -/
def run : (fuel : Nat) → Scanner → Scan
  | 0, s => s.stop .malformed
  | fuel + 1, s =>
      match s.fetch? with
      | .error e => s.stop e
      | .ok (some next) => run fuel next
      | .ok none =>
          match s.finish with
          | .error e => s.stop e
          | .ok s => ⟨s.tokens.reverse, none⟩

end Scanner

/-- The tokens of a document. -/
def scan (text : Text) : Scan :=
  Scanner.run text.length.succ { cursor := { rest := text } }

end Splice.Yaml
