import Splice.Yaml.Node

/-!
# The value of a document

A tree becomes a value once each scalar has become what its tag says and mappings have been merged.
The faults of a collection count before those inside its items, whatever their order in the text:
the value is built level by level.

* `Yaml.Outcome` — a value or a fault, which comes with its level;
* `Yaml.Node.construct` — the value of a tree; and
* `Yaml.parse` — the value of a document.
-/

namespace Splice.Yaml

/-! ## Outcomes -/

/-- A value, or a fault with the number of collections around it. -/
abbrev Outcome (α : Type) := Except (Nat × Error) α

namespace Outcome

variable {α β : Type}

/-- A fault outside any collection. -/
def refused (e : Error) : Outcome α := .error (0, e)

/-- An outcome inside one more collection. -/
def inside (outcome : Outcome α) : Outcome α := outcome.mapError fun (level, e) => (level + 1, e)

/-- Both values. Of two faults the one with fewer collections around it counts, and of two that are
equal in this the left one. -/
def both : Outcome α → Outcome β → Outcome (α × β)
  | .ok a, .ok b => .ok (a, b)
  | .ok _, .error f => .error f
  | .error e, .ok _ => .error e
  | .error e, .error f => .error (if f.1 < e.1 then f else e)

/-- All values of a list. -/
def all : List (Outcome α) → Outcome (List α)
  | [] => .ok []
  | outcome :: rest => (both outcome (all rest)).map fun (value, values) => value :: values

/-- A value as a key. Collections are no keys, and that is so before their contents are looked
at. -/
def asKey : Outcome Value → Outcome Scalar
  | .ok (.scalar key) => .ok key
  | .ok _ => refused .malformed
  | .error (0, e) => .error (0, e)
  | .error (_ + 1, _) => refused .malformed

end Outcome

open Outcome

/-! ## Trees -/

namespace Node

/-- The tag of a node. -/
def tag : Node → Tag
  | .scalar tag _ | .sequence tag _ | .mapping tag _ | .enclosing tag => tag

mutual

/-- The text of a scalar, or of the value that stands for a whole mapping. -/
def text? : Node → Option Text
  | .scalar _ text => some text
  | .mapping _ entries => valueText? entries
  | _ => none

/-- The text of the value that stands for a whole mapping. -/
def valueText? : List (Node × Node) → Option Text
  | [] => none
  | (key, value) :: entries => if key.tag = .value then text? value else valueText? entries

end

/-- An entry of a mapping under construction. -/
abbrev Entry := Outcome Scalar × Outcome Value

/-- The entries of a mapping under construction: those merged into it, and its own. -/
structure Entries where
  /-- The entries of other mappings. -/
  merged : List Entry := []
  /-- The entries of the mapping itself. -/
  own : List Entry := []

/-- All entries in their order. What is merged comes first. -/
def Entries.toList (entries : Entries) : List Entry := entries.merged ++ entries.own

/-- The keys and values of a mapping. Of a repeated key the last value counts. -/
def ofEntries (entries : List Entry) : Outcome (List (Scalar × Value)) :=
  (all (entries.map fun (key, value) => both key value)).map fun pairs =>
    pairs.foldl (fun entries (key, value) => Value.setEntry key value entries) []

/-- The value of a text with a tag, for a node of any kind. -/
def ofText? (tag : Tag) : Option Text → Outcome Value
  | some text => ((tag.construct text).map Value.scalar).mapError fun e => (0, e)
  | none => refused .malformed

/-- What a tag makes of a collection that it is not for. -/
def unfit (tag : Tag) : Outcome Value :=
  if tag.isCollection then (refused .malformed).inside else refused .malformed

mutual

/-- The value of a node. -/
def construct : Node → Outcome Value
  | .scalar tag text => if tag.isCollection then unfit tag else ofText? tag (some text)
  | .sequence tag items =>
      match tag with
      | .seq => (all (constructItems items)).inside.map .list
      | .pairs => (all (constructPairs items)).inside.map .list
      | tag => unfit tag
  | .mapping tag entries =>
      match tag with
      | .map | .set =>
          match constructEntries entries with
          | none => unfit tag
          | some entries =>
              (ofEntries entries.toList).inside.map fun pairs =>
                if tag = .map then .map pairs else .set (pairs.map Prod.fst)
      | tag => if tag.isCollection then unfit tag else ofText? tag (valueText? entries)
  | .enclosing tag =>
      match tag with
      | .seq | .pairs => .ok .outerList
      | .map | .set => .ok .outerMap
      | tag => unfit tag

/-- The values of the items of a sequence. -/
def constructItems : List Node → List (Outcome Value)
  | [] => []
  | item :: items => construct item :: constructItems items

/-- The pairs that the items of a sequence are; each is a mapping with one entry. -/
def constructPairs : List Node → List (Outcome Value)
  | [] => []
  | .mapping _ [(key, value)] :: items =>
      ((both (construct key) (construct value)).map fun (first, second) => .pair first second)
        :: constructPairs items
  | _ :: items => refused .malformed :: constructPairs items

/-- The entries of a mapping, unless something cannot be merged into it. The sign that stands for a
whole mapping is a text as a key. -/
def constructEntries : List (Node × Node) → Option Entries
  | [] => some {}
  | (key, value) :: entries => do
      let later ← constructEntries entries
      if key.tag = .merge then
        return { later with merged := (← constructMerged value) ++ later.merged }
      else
        let scalar := match key with
          | .scalar .value text => .ok (.text text)
          | key => asKey (construct key)
        return { later with own := (scalar, construct value) :: later.own }

/-- The entries that a node adds to a mapping: those of a mapping, or of several ones, the last of
which comes first. -/
def constructMerged : Node → Option (List Entry)
  | .mapping _ entries => (constructEntries entries).map Entries.toList
  | .sequence _ items => constructMergedItems items
  | .enclosing tag => if tag = .map ∨ tag = .set then some [] else none
  | .scalar _ _ => none

/-- The entries of the mappings in a list, those of the last one first. -/
def constructMergedItems : List Node → Option (List Entry)
  | [] => some []
  | .mapping _ entries :: items => do
      return (← constructMergedItems items) ++ (← constructEntries entries).toList
  | .enclosing tag :: items =>
      if tag = .map ∨ tag = .set then constructMergedItems items else none
  | _ :: _ => none

end

end Node

/-! ## Documents -/

/-- The value of a document; a text that holds none stands for nothing. -/
def parse (text : Text) : Except Error Value :=
  if !text.all isPrintable then .error .malformed
  else
    match Node.ofScan? (scan text) with
    | .error e => .error e
    | .ok none => .ok (.scalar .null)
    | .ok (some node) => node.construct.mapError Prod.snd

end Splice.Yaml
