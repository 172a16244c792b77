import Splice.Placeholder
import Splice.Text.Pattern

/-!
# Resolvers

A resolver turns the values of variables into texts and replaces placeholders in documents. It
serves a whole run: it keeps the texts of the global variables, and the pattern of each placeholder
that it has been asked for.

* `Resolver.setGlobals`, `Resolver.normalize` — the texts of variables;
* `Resolver.patternFor`, `Resolver.patterns` — the patterns of placeholders; and
* `Resolver.replaceAll` — a document with placeholders replaced.

A step gives no result if a pattern cannot be compiled as a literal, or if the value of a global
variable cannot be shown.
-/

namespace Splice.Placeholder

/-- A resolver between two calls (`VariableResolver`). -/
structure Resolver where
  /-- What stands before and behind a placeholder. -/
  delimiters : Delimiters := {}
  /-- Are references in the values of variables expanded? -/
  expandValues : Bool := true
  /-- The texts of the global variables. -/
  globals : Bindings Text := []
  /-- The patterns made so far, by the names of their variables. -/
  memo : Bindings Pattern := []

namespace Resolver

/-! ## Texts of variables -/

/-- Keeps the texts of global variables (`set_globals`). -/
def setGlobals (resolver : Resolver) (bindings : Bindings Value) : Option Resolver :=
  if areShowable bindings then some { resolver with globals := globalTexts bindings } else none

/-- The text of a value (`_normalize_value`). References in a text are expanded if the resolver does
so. -/
def normalizeValue (resolver : Resolver) (context : Bindings Text) (value : Value) : Text :=
  match value.toText? with
  | some text => if resolver.expandValues then Text.expandReferences context text else text
  | none => value.toText

/-- The texts of variables (`normalize`). If no context is given, references are to the global
variables. -/
def normalize (resolver : Resolver) (bindings : Bindings Value)
    (context? : Option (Bindings Text)) : Bindings Text :=
  bindings.map fun (name, value) =>
    (name, resolver.normalizeValue (context?.getD resolver.globals) value)

/-! ## Patterns of placeholders -/

/-- The pattern of a placeholder as it is written. -/
def sourceOf (d : Delimiters) (name : Text) : Text :=
  Pattern.escape d.opener ++ Pattern.escape name ++ Pattern.escape d.closer

/-- The pattern of a placeholder (`pattern_for`): the one made before, or a new one, which is
kept. -/
def patternFor (resolver : Resolver) (name : Text) : Option (Pattern × Resolver) :=
  match Bindings.get? name resolver.memo with
  | some pattern => some (pattern, resolver)
  | none => do
      let pattern ← Pattern.compile? (sourceOf resolver.delimiters name)
      return (pattern, { resolver with memo := Bindings.set name pattern resolver.memo })

/-- The patterns of the placeholders of variables, each with the text that replaces it
(`patterns`). -/
def patterns (resolver : Resolver) :
    Bindings Text → Option (List (Text × Pattern × Text) × Resolver)
  | [] => some ([], resolver)
  | (name, value) :: texts => do
      let (pattern, resolver) ← resolver.patternFor name
      let (triples, resolver) ← resolver.patterns texts
      return ((name, pattern, value) :: triples, resolver)

/-- The document with the placeholders of the variables replaced, one variable after the other
(`replace_all`). -/
def replaceAll (resolver : Resolver) (texts : Bindings Text) (document : Text) :
    Option (Text × Resolver) := do
  let (triples, resolver) ← resolver.patterns texts
  return (triples.foldl (fun document (_, pattern, value) => pattern.sub value document) document,
    resolver)

end Resolver

end Splice.Placeholder
