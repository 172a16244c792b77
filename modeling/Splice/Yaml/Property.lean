import Splice.Encoding.Utf8
import Splice.Yaml.Quoted

/-!
# Anchors, tags and directives

What may stand before the content of a node or of a document.

* `Yaml.anchorName` — the name of an anchor or an alias;
* `Yaml.tagName` — a tag: a handle and what follows it, or a whole name; and
* `Yaml.Directive` with `Yaml.directive` — a line that begins with a percent sign.

Each reader takes a cursor at the indicator and gives the place behind what it has read.
-/

namespace Splice.Yaml

/-- Does the text end here, or go on with a space or a line break? -/
def endsWord (text : Text) : Bool := endsOr (fun c => c = ' ' || isBreak c) text

/-- The name of an anchor or an alias. -/
def anchorName (cursor : Cursor) : Except Error (Text × Cursor) :=
  let (name, cursor) := cursor.next.span isNameChar
  let closes (c : Char) : Bool := isGap c || ("?:,]\x7d%@\x60".toList).contains c
  if name.isEmpty || !endsOr closes cursor.rest then .error .malformed else .ok (name, cursor)

/-! ## Tags -/

/-- May the character stand in a tag as it is? -/
def isTagChar (c : Char) : Bool := c.isAlphanum || ("-;/?:@&=+$,_.!~*'()[]".toList).contains c

/-- The bytes that a run of escapes spells: each is a percent sign and two hexadecimal digits. -/
def tagBytes : Text → Except Error Bytes
  | '%' :: a :: b :: rest =>
      match Text.hexDigit? a, Text.hexDigit? b with
      | some high, some low =>
          (tagBytes rest).map fun bytes => UInt8.ofNat (16 * high + low) :: bytes
      | _, _ => .error .malformed
  | '%' :: _ => .error .malformed
  | _ => .ok []

/-- The characters of a tag from the cursor on. Escapes in a row are the UTF-8 form of
characters. -/
def tagTextFrom : (fuel : Nat) → Cursor → Except Error (Text × Cursor)
  | 0, _ => .error .malformed
  | fuel + 1, cursor =>
      let (run, cursor) := cursor.span isTagChar
      if startsWith (· = '%') cursor.rest then do
        let bytes ← tagBytes cursor.rest
        let decoded ← (Encoding.decodeUtf8 bytes).mapError fun _ => .malformed
        let (more, cursor) ← tagTextFrom fuel (cursor.skip (3 * bytes.length))
        return (run ++ decoded ++ more, cursor)
      else .ok (run, cursor)

/-- The characters of a tag; there is at least one. -/
def tagText (cursor : Cursor) : Except Error (Text × Cursor) := do
  let (text, cursor) ← tagTextFrom cursor.rest.length.succ cursor
  if text.isEmpty then throw .malformed else return (text, cursor)

/-- A handle: an exclamation mark, or a name between two of them. -/
def tagHandle (cursor : Cursor) : Except Error (Text × Cursor) :=
  match cursor.rest with
  | '!' :: ' ' :: _ => .ok (['!'], cursor.next)
  | '!' :: _ =>
      let (name, cursor) := cursor.next.span isNameChar
      if startsWith (· = '!') cursor.rest then .ok ('!' :: name ++ ['!'], cursor.next)
      else .error .malformed
  | _ => .error .malformed

/-- A tag as it is written. -/
structure TagName where
  /-- The handle, unless the name is whole. -/
  handle : Option Text
  /-- What follows the handle. -/
  text : Text
deriving DecidableEq, Repr

/-- A tag that stands between angle brackets. -/
def verbatimTag (cursor : Cursor) : Except Error (TagName × Cursor) := do
  let (text, cursor) ← tagText (cursor.skip 2)
  if startsWith (· = '>') cursor.rest then return (⟨none, text⟩, cursor.next) else throw .malformed

/-- A tag that begins with a handle. The handle has a name if its word holds a second exclamation
mark. -/
def handledTag (cursor : Cursor) : Except Error (TagName × Cursor) := do
  let word := (cursor.rest.drop 1).takeWhile fun c => !(c = ' ' || isBreak c)
  let (handle, cursor) ← if word.contains '!' then tagHandle cursor else .ok (['!'], cursor.next)
  let (text, cursor) ← tagText cursor
  return (⟨some handle, text⟩, cursor)

/-- A tag. A lone exclamation mark is one by itself. -/
def tagName (cursor : Cursor) : Except Error (TagName × Cursor) := do
  let rest := cursor.rest.drop 1
  let (name, cursor) ←
    if startsWith (· = '<') rest then verbatimTag cursor
    else if endsOr isGap rest then .ok (⟨none, ['!']⟩, cursor.next)
    else handledTag cursor
  if endsWord cursor.rest then return (name, cursor) else throw .malformed

/-! ## Directives -/

/-- What a directive says. -/
inductive Directive where
  /-- The document follows this major version of the format. -/
  | version (major : Nat)
  /-- A handle stands for the beginning of names. -/
  | handle (name lead : Text)
  /-- The directive is reserved and has no effect. -/
  | reserved
deriving DecidableEq, Repr

/-- A decimal number. -/
def versionNumber (cursor : Cursor) : Except Error (Nat × Cursor) :=
  let (digits, cursor) := cursor.span Char.isDigit
  if digits.isEmpty then .error .malformed
  else .ok (Text.digitsValue 10 (digits.filterMap Text.hexDigit?), cursor)

/-- The version of the format: two numbers with a point between them. -/
def versionDirective (cursor : Cursor) : Except Error (Directive × Cursor) := do
  let (major, cursor) ← versionNumber cursor.skipSpaces
  if !startsWith (· = '.') cursor.rest then throw .malformed
  let (_, cursor) ← versionNumber cursor.next
  if endsWord cursor.rest then return (.version major, cursor) else throw .malformed

/-- The meaning of a handle. -/
def handleDirective (cursor : Cursor) : Except Error (Directive × Cursor) := do
  let (name, cursor) ← tagHandle cursor.skipSpaces
  if !startsWith (· = ' ') cursor.rest then throw .malformed
  let (lead, cursor) ← tagText cursor.skipSpaces
  if endsWord cursor.rest then return (.handle name lead, cursor) else throw .malformed

/-- A directive, with the line it stands in. -/
def directive (cursor : Cursor) : Except Error (Directive × Cursor) := do
  let (name, cursor) := cursor.next.span isNameChar
  if name.isEmpty || !endsWord cursor.rest then throw .malformed
  let (said, cursor) ←
    if name = ("YAML" : Text) then versionDirective cursor
    else if name = ("TAG" : Text) then handleDirective cursor
    else .ok (.reserved, cursor.skipWhile (!isBreak ·))
  match cursor.endLine? with
  | some cursor => return (said, cursor)
  | none => throw .malformed

end Splice.Yaml
