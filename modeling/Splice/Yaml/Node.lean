import Splice.Bindings
import Splice.Yaml.Tag
import Splice.Yaml.Token

/-!
# Nodes

A document is a tree of scalars, sequences and mappings, each with a tag. An alias stands for the
node that has its anchor.

* `Yaml.Node` — the trees;
* `Yaml.Reader` — the tokens that are left, with the handles and the anchors that are known; and
* `Yaml.Node.ofScan?` — the tree of a document.
-/

namespace Splice.Yaml

/-- A part of a document. -/
inductive Node where
  /-- A scalar. -/
  | scalar (tag : Tag) (text : Text)
  /-- A sequence. -/
  | sequence (tag : Tag) (items : List Node)
  /-- A mapping; its keys may repeat. -/
  | mapping (tag : Tag) (entries : List (Node × Node))
  /-- A collection that encloses this node, met again. -/
  | enclosing (tag : Tag)
deriving Repr

/-- The node that is left out. -/
def Node.absent : Node := .scalar .null []

/-- What has been read of a document, and what is left of it. -/
structure Reader where
  /-- The tokens that are left. -/
  tokens : List Token
  /-- The fault behind the last of them. -/
  fault : Error
  /-- The beginnings of names for which handles stand. -/
  handles : Bindings Text := [("!", "!"), ("!!", Tag.lead)]
  /-- The nodes with anchors. -/
  anchors : Bindings Node := []

/-- A reader of a part of a document. -/
abbrev Reading := StateT Reader (Except Error)

namespace Reader

/-- The next token. -/
def peek : Reading Token := fun reader =>
  match reader.tokens with
  | [] => .error reader.fault
  | token :: _ => .ok (token, reader)

/-- Goes on behind the next token. -/
def advance : Reading Unit :=
  modify fun reader => { reader with tokens := reader.tokens.drop 1 }

/-- Goes on behind the next token if it is the given one. -/
def accept (token : Token) : Reading Bool := do
  if (← peek) = token then
    advance
    return true
  else return false

/-- The next token has to be the given one. -/
def expect (token : Token) : Reading Unit := do
  if !(← accept token) then throw .malformed

/-! ## Properties of nodes -/

/-- The anchor and the tag of a node, which stand before it in either order. -/
def properties : Reading (Option Text × Option TagName) := do
  match ← peek with
  | .anchor anchor =>
      advance
      match ← peek with
      | .tag tag =>
          advance
          return (some anchor, some tag)
      | _ => return (some anchor, none)
  | .tag tag =>
      advance
      match ← peek with
      | .anchor anchor =>
          advance
          return (some anchor, some tag)
      | _ => return (none, some tag)
  | _ => return (none, none)

/-- The whole name of a tag. -/
def wholeName (tag : TagName) : Reading Text := do
  match tag.handle with
  | none => return tag.text
  | some handle =>
      match Bindings.get? handle (← get).handles with
      | some lead => return lead ++ tag.text
      | none => throw .malformed

/-- The tag of a node, given the one that is usual for its kind. It gets that one if it has no tag,
or one whose name is only an exclamation mark. -/
def tagFor (name : Option Text) (usual : Tag) : Tag :=
  match name with
  | some name => if name = ['!'] then usual else Tag.ofName name
  | none => usual

/-- The tag of a scalar. A quoted one is a text unless it has a tag. -/
def scalarTag (name : Option Text) (text : Text) (isPlain : Bool) : Tag :=
  tagFor name (if isPlain || name.isSome then Tag.resolve text else .str)

/-- Binds an anchor, which has to be new. -/
def bind (anchor : Option Text) (node : Node) : Reading Unit := do
  if let some name := anchor then
    if (Bindings.get? name (← get).anchors).isSome then throw .malformed
    modify fun reader => { reader with anchors := Bindings.set name node reader.anchors }

/-- Reads the contents of a collection. Inside it, its anchor stands for a node that encloses the
place. -/
def collection (anchor : Option Text) (tag : Tag) (contents : Reading Node) : Reading Node := do
  bind anchor (.enclosing tag)
  let node ← contents
  if let some name := anchor then
    modify fun reader => { reader with anchors := Bindings.set name node reader.anchors }
  return node

/-! ## Contents -/

/-- Where a node stands. -/
inductive Place where
  /-- Inside a flow collection. -/
  | flow
  /-- Inside a block sequence, or at the top. -/
  | block
  /-- Inside a block mapping, where the items of a sequence need not be indented. -/
  | entry
deriving DecidableEq, Repr

/-- The node at this place, which is absent if one of the given tokens follows. -/
def contentUnless (stops : List Token) (content : Reading Node) : Reading Node := do
  if stops.contains (← peek) then return .absent else content

/-- A key and its value, each of which may be absent. -/
def pair (stops : List Token) (content : Reading Node) : Reading (Node × Node) := do
  let key ← contentUnless stops content
  if ← accept .value then return (key, ← contentUnless stops content)
  else return (key, .absent)

/-- The tokens before which an item of a block sequence is absent. -/
def itemStops : List Token := [.blockEntry, .blockEnd]

/-- The tokens before which an item of a sequence that is not indented is absent. -/
def looseItemStops : List Token := [.blockEntry, .key, .value, .blockEnd]

/-- The tokens before which a key or a value of a block mapping is absent. -/
def entryStops : List Token := [.key, .value, .blockEnd]

/-- The tokens before which a key or a value of a pair in a flow sequence is absent. -/
def flowItemStops : List Token := [.value, .flowEntry, .flowSequenceEnd]

/-- The tokens before which a key or a value of a flow mapping is absent. -/
def flowEntryStops : List Token := [.value, .flowEntry, .flowMappingEnd]

mutual

/-- The node at this place. -/
def node (place : Place) : (fuel : Nat) → Reading Node
  | 0 => throw .malformed
  | fuel + 1 => do
      -- An alias has no properties of its own.
      if let .alias name ← peek then
        advance
        match Bindings.get? name (← get).anchors with
        | some node => return node
        | none => throw .malformed
      let (anchor, tag) ← properties
      let name ← tag.mapM wholeName
      let sequence (items : Reading (List Node)) : Reading Node :=
        let tag := tagFor name .seq
        collection anchor tag do return .sequence tag (← items)
      let mapping (entries : Reading (List (Node × Node))) : Reading Node :=
        let tag := tagFor name .map
        collection anchor tag do return .mapping tag (← entries)
      let next ← peek
      -- Items that stand no deeper than their key have no token that begins them.
      if next = .blockEntry ∧ place = .entry then sequence (looseItems fuel)
      else
        match next with
        | .scalar text isPlain =>
            advance
            let node := Node.scalar (scalarTag name text isPlain) text
            bind anchor node
            return node
        | .flowSequence =>
            advance
            sequence (flowItems true fuel)
        | .flowMapping =>
            advance
            mapping (flowEntries true fuel)
        | _ =>
            if next = .blockSequence ∧ place ≠ .flow then
              advance
              sequence (items fuel)
            else if next = .blockMapping ∧ place ≠ .flow then
              advance
              mapping (entries fuel)
            else if anchor.isSome || name.isSome then
              -- Properties alone are those of an empty scalar.
              let node := Node.scalar (tagFor name .null) []
              bind anchor node
              return node
            else throw .malformed

/-- The items of a block sequence. -/
def items : (fuel : Nat) → Reading (List Node)
  | 0 => throw .malformed
  | fuel + 1 => do
      if ← accept .blockEntry then
        let item ← contentUnless itemStops (node .block fuel)
        return item :: (← items fuel)
      else
        expect .blockEnd
        return []

/-- The items of a sequence in a block mapping that is not indented. -/
def looseItems : (fuel : Nat) → Reading (List Node)
  | 0 => throw .malformed
  | fuel + 1 => do
      if ← accept .blockEntry then
        let item ← contentUnless looseItemStops (node .block fuel)
        return item :: (← looseItems fuel)
      else return []

/-- The entries of a block mapping. -/
def entries : (fuel : Nat) → Reading (List (Node × Node))
  | 0 => throw .malformed
  | fuel + 1 => do
      if ← accept .key then
        let entry ← pair entryStops (node .entry fuel)
        return entry :: (← entries fuel)
      else
        expect .blockEnd
        return []

/-- The items of a flow sequence. A pair is a mapping of its own. -/
def flowItems (first : Bool) : (fuel : Nat) → Reading (List Node)
  | 0 => throw .malformed
  | fuel + 1 => do
      if ← accept .flowSequenceEnd then return []
      if !first then expect .flowEntry
      if ← accept .flowSequenceEnd then return []
      let item ← if ← accept .key then
          let entry ← pair flowItemStops (node .flow fuel)
          pure (Node.mapping .map [entry])
        else node .flow fuel
      return item :: (← flowItems false fuel)

/-- The entries of a flow mapping. A node without a colon is a key without a value. -/
def flowEntries (first : Bool) : (fuel : Nat) → Reading (List (Node × Node))
  | 0 => throw .malformed
  | fuel + 1 => do
      if ← accept .flowMappingEnd then return []
      if !first then expect .flowEntry
      if ← accept .flowMappingEnd then return []
      let entry ← if ← accept .key then pair flowEntryStops (node .flow fuel)
        else do pure (← node .flow fuel, Node.absent)
      return entry :: (← flowEntries false fuel)

end

/-! ## Documents -/

/-- The directives before a document. The version may be given once, and it has to be one that
begins with 1; no handle may be given twice. -/
def directives (version : Bool) (given : Bindings Text) : (fuel : Nat) → Reading (Bindings Text)
  | 0 => throw .malformed
  | fuel + 1 => do
      match ← peek with
      | .directive (.version major) =>
          advance
          if version || major ≠ 1 then throw .malformed
          directives true given fuel
      | .directive (.handle name lead) =>
          advance
          if (Bindings.get? name given).isSome then throw .malformed
          directives version (Bindings.set name lead given) fuel
      | .directive .reserved =>
          advance
          directives version given fuel
      | _ => return given

/-- Does a mark, a directive or the end stand here? -/
def isBoundary : Token → Bool
  | .directive _ | .documentStart | .documentEnd | .streamEnd => true
  | _ => false

/-- Goes on behind the marks that end a document. -/
def skipEnds : (fuel : Nat) → Reading Unit
  | 0 => throw .malformed
  | fuel + 1 => do
      if ← accept .documentEnd then skipEnds fuel

/-- The only document, if there is one. -/
def document (fuel : Nat) : Reading (Option Node) := do
  let next ← peek
  if next = .streamEnd then return none
  let node ←
    if next = .documentEnd || !isBoundary next then node .block fuel
    else
      let given ← directives false [] fuel
      modify fun reader => { reader with handles := Bindings.overlay reader.handles given }
      expect .documentStart
      if isBoundary (← peek) then pure .absent else node .block fuel
  skipEnds fuel
  if ← accept .streamEnd then return some node
  -- What follows is a second document. A fault in its directives counts before that.
  let _ ← directives false [] fuel
  let _ ← peek
  throw .malformed

end Reader

/-- The tree of a document; there is none if the text holds no document. -/
def Node.ofScan? (scan : Scan) : Except Error (Option Node) :=
  let fuel := 2 * scan.tokens.length + 2
  (Reader.document fuel { tokens := scan.tokens, fault := scan.fault.getD .malformed }).map Prod.fst

end Splice.Yaml
