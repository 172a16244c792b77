import Splice.Value.Show

/-!
# JSON values among all values

A JSON value is a value that JSON can hold, so its text is its JSON text.

* `Value.toJson?_ofJson` — what JSON can hold of a JSON value is the value itself; and
* `Value.toText_ofJson` — the text of a JSON value in a document.
-/

namespace Splice.Value

mutual

theorem toJson?_ofJson : (v : Json) → (ofJson v).toJson? = some v
  | .null | .bool _ | .int _ | .float _ | .str _ => rfl
  | .arr items => by rw [ofJson, toJson?, toJsonItems?_ofJsonItems items]; rfl
  | .obj fields => by rw [ofJson, toJson?, toJsonFields?_ofJsonFields fields]; rfl

theorem toJsonItems?_ofJsonItems :
    (items : List Json) → toJsonItems? (ofJsonItems items) = some items
  | [] => rfl
  | item :: items => by
    rw [ofJsonItems, toJsonItems?, toJson?_ofJson item, toJsonItems?_ofJsonItems items]
    rfl

theorem toJsonFields?_ofJsonFields : (fields : List (Text × Json)) →
    toJsonFields? (ofJsonFields fields) = some fields
  | [] => rfl
  | (name, value) :: fields => by
    rw [ofJsonFields, toJsonFields?, toJson?_ofJson value, toJsonFields?_ofJsonFields fields]
    rfl

end

theorem toText_ofJson (v : Json) : (ofJson v).toText = v.write := by
  rw [toText, toJson?_ofJson]

end Splice.Value
