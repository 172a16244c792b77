import Splice.Mustache.Escape
import Splice.Mustache.Template
import Splice.Value.Show

/-!
# Rendering templates

A template is rendered for a stack of values, the innermost first. A key that leads nowhere gives
the empty text.

* `Mustache.lookup?` — the value of a key;
* `Mustache.valueText` — the text of a value; and
* `Mustache.render` — a template for some variables. Templates may embed each other without end, so
  the depth is bounded by fuel: no result means that the fuel did not suffice.
-/

namespace Splice.Mustache

/-- The values in scope, the innermost first. -/
abbrev Scope := List Json

/-! ## Keys and values -/

/-- The field of an object. -/
def field? (name : Text) : Json → Option Json
  | .obj fields => Bindings.get? name fields
  | _ => none

/-- The value of a key. A lone dot is the innermost value. Otherwise the key is cut at its dots: the
first name is looked up in the objects in scope, from the innermost outwards, and every other name
in the value before it. -/
def lookup? (scope : Scope) (key : Text) : Option Json :=
  if key = ['.'] then scope.head?
  else
    match Text.pieces '.' key with
    | [] => none
    | first :: others =>
        others.foldl (fun value? name => value?.bind (field? name)) (scope.findSome? (field? first))

/-- Does a value count as true? The empty values and the numbers zero do not. -/
def isTruthy : Json → Bool
  | .null => false
  | .bool b => b
  | .int n => n ≠ 0
  | .float x => !x.isZero
  | .str text => !text.isEmpty
  | .arr items => !items.isEmpty
  | .obj fields => !fields.isEmpty

/-- The text of a value (`str_coerce`): nothing for `null`, small letters for truth values, and no
point in a number without fraction. -/
def valueText : Json → Text
  | .null => []
  | .bool b => if b then "true" else "false"
  | .str text => text
  | .float x =>
      match x.toInt? with
      | some n => Text.ofInt n
      | none => (Value.ofJson (.float x)).display
  | value => (Value.ofJson value).display

/-- The text of a key's value. -/
def keyText (scope : Scope) (key : Text) : Text := ((lookup? scope key).map valueText).getD []

/-- The values for which a part is rendered: the items of a list, or the value itself; none if the
value does not count as true. -/
def blockItems (scope : Scope) (key : Text) : List Json :=
  match lookup? scope key with
  | none => []
  | some value =>
      if isTruthy value then
        match value with
        | .arr items => items
        | value => [value]
      else []

/-- A text with every line that is not empty indented. Lines end at a line feed. -/
def indentLines (indent text : Text) : Text :=
  go true text
where
  /-- Indents the rest of a text; `fresh` says that a line begins here. -/
  go (fresh : Bool) : Text → Text
    | [] => []
    | c :: text =>
        if c = '\n' then c :: go true text
        else (if fresh then indent else []) ++ c :: go false text

/-! ## Rendering -/

/-- What rendering needs besides the template. -/
structure Environment (ε : Type) where
  /-- Are special characters escaped? -/
  escaping : Bool
  /-- Loads the template that another one embeds; one that is missing is empty. -/
  load : Text → Except ε Text
  /-- Turns the reason why a text is no template into an error of the caller's. -/
  malformed : Error → ε

/-- The outcome of rendering: none if the fuel did not suffice. -/
abbrev Rendered (ε : Type) := Option (Except ε Text)

/-- The text of both outcomes, in order; the first that is no text decides, and what comes after it
is not rendered. -/
def Rendered.append {ε : Type} (first : Rendered ε) (second : Unit → Rendered ε) : Rendered ε :=
  match first with
  | none => none
  | some (.error e) => some (.error e)
  | some (.ok s) => (second ()).map fun rest => rest.map (s ++ ·)

/-- Renders something for each item, one after the other. -/
def renderEach {ε : Type} (render : Json → Rendered ε) : List Json → Rendered ε
  | [] => some (.ok [])
  | item :: items => (render item).append fun _ => renderEach render items

mutual

/-- Renders a node. `embed` renders another template for a scope. -/
def Node.render {ε : Type} (env : Environment ε) (embed : Scope → Text → Rendered ε)
    (scope : Scope) : Node → Rendered ε
  | .text t => some (.ok t)
  | .escaped key =>
      let text := keyText scope key
      some (.ok (if env.escaping then escape text else text))
  | .unescaped key => some (.ok (keyText scope key))
  | .block key body =>
      renderEach (fun item => renderNodes env embed (item :: scope) body) (blockItems scope key)
  | .inverse key body =>
      if ((lookup? scope key).map isTruthy).getD false then some (.ok [])
      else renderNodes env embed scope body
  | .embed key indent =>
      match env.load key with
      | .error e => some (.error e)
      | .ok text => embed scope (indentLines indent text)

/-- Renders nodes one after the other. -/
def renderNodes {ε : Type} (env : Environment ε) (embed : Scope → Text → Rendered ε)
    (scope : Scope) : List Node → Rendered ε
  | [] => some (.ok [])
  | node :: nodes => (node.render env embed scope).append fun _ => renderNodes env embed scope nodes

end

/-- Renders a template for a scope. Each embedded template takes one unit of fuel. -/
def renderIn {ε : Type} (env : Environment ε) : (fuel : Nat) → Scope → Text → Rendered ε
  | 0, _, _ => none
  | fuel + 1, scope, template =>
      match parse template with
      | .error e => some (.error (env.malformed e))
      | .ok nodes => renderNodes env (renderIn env fuel) scope nodes

/-- Renders a template for some variables. -/
def render {ε : Type} (env : Environment ε) (fuel : Nat) (bindings : Bindings Json)
    (template : Text) : Rendered ε :=
  renderIn env fuel [.obj bindings] template

end Splice.Mustache
