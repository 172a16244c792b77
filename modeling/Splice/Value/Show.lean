import Splice.Json.Printer
import Splice.Text.Quoted
import Splice.Value.Basic

/-!
# Showing values

A value becomes the text of a document either as JSON or, if it has a part that JSON cannot hold, in
a form of its own.

* `Value.shown` — the form of a value inside another: texts are quoted;
* `Value.display` — the form of a value that stands alone: a text is itself;
* `Value.toText` — JSON if possible, the display form otherwise; and
* `Value.isShowable` — does the value have these forms?

An integer with more than `Json.maxDigits` digits has none of them, and neither has a value that
holds it. The forms are given for all other values.
-/

namespace Splice

/-- Numbers are written as in JSON, but for the names of the special ones. -/
def Scalar.floatStyle : Double.Style where
  nan := "nan"
  infinity := "inf"
  leastPositional := -4
  greatestPositional := 15

/-- The form of a scalar inside another value. -/
def Scalar.shown : Scalar → Text
  | .null => "None"
  | .bool b => if b then "True" else "False"
  | .int n => Text.ofInt n
  | .float x => x.write Scalar.floatStyle
  | .text t => Text.quote t
  | .date d => d.shown
  | .dateTime t => t.shown
  | .bytes b => Text.quoteBytes b

/-- The form of a scalar that stands alone. -/
def Scalar.display : Scalar → Text
  | .text t => t
  | .date d => d.iso
  | .dateTime t => t.iso
  | s => s.shown

/-- The text of a scalar as the name of a JSON field, if JSON can hold it. -/
def Scalar.fieldName? : Scalar → Option Text
  | .null => some "null"
  | .bool b => some (if b then "true" else "false")
  | .int n => some (Text.ofInt n)
  | .float x => some (x.write Json.floatStyle)
  | .text t => some t
  | .date _ | .dateTime _ | .bytes _ => none

/-- Does the scalar have few enough digits to be shown? -/
def Scalar.isShowable : Scalar → Bool
  | .int n => decide ((Text.ofNat n.natAbs).length ≤ Json.maxDigits)
  | _ => true

namespace Value

mutual

/-- Do all integers in the value have few enough digits to be shown? -/
def isShowable : Value → Bool
  | .scalar s => s.isShowable
  | .list items => areShowable items
  | .pair first second => first.isShowable && second.isShowable
  | .map entries => entriesShowable entries
  | .set members => members.all Scalar.isShowable
  | .outerList | .outerMap => true

/-- Can the items of a list be shown? -/
def areShowable : List Value → Bool
  | [] => true
  | item :: items => item.isShowable && areShowable items

/-- Can the entries of a mapping be shown? -/
def entriesShowable : List (Scalar × Value) → Bool
  | [] => true
  | (key, value) :: entries => key.isShowable && value.isShowable && entriesShowable entries

end

/-- Texts with a comma and a space between them. -/
def commas (texts : List Text) : Text := List.intercalate ", " texts

mutual

/-- The form of a value inside another. -/
def shown : Value → Text
  | .scalar s => s.shown
  | .list items => '[' :: commas (shownItems items) ++ [']']
  | .pair first second => '(' :: first.shown ++ ',' :: ' ' :: second.shown ++ [')']
  | .map entries => '{' :: commas (shownEntries entries) ++ ['}']
  | .set members =>
      if members.isEmpty then "set()" else '{' :: commas (members.map Scalar.shown) ++ ['}']
  | .outerList => "[...]"
  | .outerMap => "\x7b...\x7d"

/-- The forms of the items of a list. -/
def shownItems : List Value → List Text
  | [] => []
  | item :: items => item.shown :: shownItems items

/-- The forms of the entries of a mapping. -/
def shownEntries : List (Scalar × Value) → List Text
  | [] => []
  | (key, value) :: entries => (key.shown ++ ':' :: ' ' :: value.shown) :: shownEntries entries

end

/-- The form of a value that stands alone. -/
def display : Value → Text
  | .scalar s => s.display
  | value => value.shown

mutual

/-- The value as JSON, if JSON can hold it. A pair is an array of two. -/
def toJson? : Value → Option Json
  | .scalar .null => some .null
  | .scalar (.bool b) => some (.bool b)
  | .scalar (.int n) => some (.int n)
  | .scalar (.float x) => some (.float x)
  | .scalar (.text t) => some (.str t)
  | .scalar (.date _) | .scalar (.dateTime _) | .scalar (.bytes _) => none
  | .set _ | .outerList | .outerMap => none
  | .list items => (toJsonItems? items).map .arr
  | .pair first second => do return .arr [← toJson? first, ← toJson? second]
  | .map entries => (toJsonFields? entries).map .obj

/-- The items of a list as JSON. -/
def toJsonItems? : List Value → Option (List Json)
  | [] => some []
  | item :: items => do return (← toJson? item) :: (← toJsonItems? items)

/-- The entries of a mapping as JSON fields. Keys that differ may have the same name. -/
def toJsonFields? : List (Scalar × Value) → Option (List (Text × Json))
  | [] => some []
  | (key, value) :: entries => do
      return (← key.fieldName?, ← toJson? value) :: (← toJsonFields? entries)

end

/-- The text of a value in a document (`to_text`): JSON if possible, the display form otherwise. A
value that cannot be shown has neither. -/
def toText (value : Value) : Text :=
  match value.toJson? with
  | some json => json.write
  | none => value.display

end Value

end Splice
