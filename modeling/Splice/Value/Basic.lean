import Splice.Json.Basic
import Splice.Value.Moment

/-!
# Values of options and variables

Configuration files hold more kinds of values than JSON: dates, times and bytes, and mappings whose
keys are not texts.

* `Scalar` — a value without parts, and the equality that mapping keys obey;
* `Value` — any value, with `Value.ofJson` and `Value.toJson?` between it and JSON; and
* `Value.typeName` — the name of its kind in messages.
-/

namespace Splice

/-- A value without parts. -/
inductive Scalar where
  /-- The value that stands for nothing. -/
  | null
  /-- A truth value. -/
  | bool (b : Bool)
  /-- An integer. -/
  | int (n : Int)
  /-- A floating-point number. -/
  | float (x : Double)
  /-- A text. -/
  | text (t : Text)
  /-- A date. -/
  | date (d : Date)
  /-- A date with a time of day. -/
  | dateTime (t : DateTime)
  /-- Bytes. -/
  | bytes (b : List UInt8)
deriving DecidableEq, Repr

/-- Any value. -/
inductive Value where
  /-- A value without parts. -/
  | scalar (s : Scalar)
  /-- A list. -/
  | list (items : List Value)
  /-- A pair, as in an ordered list of entries. -/
  | pair (first second : Value)
  /-- A mapping, in the order of first binding. No key occurs twice. -/
  | map (entries : List (Scalar × Value))
  /-- A set, in the order of first occurrence. -/
  | set (members : List Scalar)
  /-- A list that encloses this value, met again. -/
  | outerList
  /-- A mapping that encloses this value, met again. -/
  | outerMap
deriving Repr

namespace Scalar

/-- The integer that a truth value or a number is equal to. -/
def toInt? : Scalar → Option Int
  | .bool b => some (if b then 1 else 0)
  | .int n => some n
  | .float x => x.toInt?
  | _ => none

/-- Are two scalars the same key? Truth values and numbers are compared by value, times by the
moment they name. -/
def sameKey : Scalar → Scalar → Bool
  | .null, .null => true
  | .text s, .text t => s == t
  | .date c, .date d => c == d
  | .dateTime s, .dateTime t => s.same t
  | .bytes a, .bytes b => a == b
  | .float x, .float y => x == y || (x.isZero && y.isZero)
  | s, t =>
      match s.toInt?, t.toInt? with
      | some m, some n => m == n
      | _, _ => false

end Scalar

namespace Value

/-- Sets the value of a key, in its place if the key is there and at the end if it is new. -/
def setEntry (key : Scalar) (value : Value) :
    List (Scalar × Value) → List (Scalar × Value)
  | [] => [(key, value)]
  | (k, old) :: rest =>
      if k.sameKey key then (k, value) :: rest else (k, old) :: setEntry key value rest

/-- The value of a text key. -/
def getEntry? (key : Text) (entries : List (Scalar × Value)) : Option Value :=
  (entries.find? fun entry => decide (entry.1 = .text key)).map Prod.snd

/-- A text as a value. -/
def ofText (t : Text) : Value := .scalar (.text t)

/-- The text of a value that is one. -/
def toText? : Value → Option Text
  | .scalar (.text t) => some t
  | _ => none

mutual

/-- A JSON value as a value. -/
def ofJson : Json → Value
  | .null => .scalar .null
  | .bool b => .scalar (.bool b)
  | .int n => .scalar (.int n)
  | .float x => .scalar (.float x)
  | .str t => .scalar (.text t)
  | .arr items => .list (ofJsonItems items)
  | .obj fields => .map (ofJsonFields fields)

/-- The items of a JSON array as values. -/
def ofJsonItems : List Json → List Value
  | [] => []
  | item :: items => ofJson item :: ofJsonItems items

/-- The fields of a JSON object as entries. -/
def ofJsonFields : List (Text × Json) → List (Scalar × Value)
  | [] => []
  | (name, value) :: fields => (.text name, ofJson value) :: ofJsonFields fields

end

/-- The name of a kind of value, as messages give it. -/
def typeName : Value → Text
  | .scalar .null => "NoneType"
  | .scalar (.bool _) => "bool"
  | .scalar (.int _) => "int"
  | .scalar (.float _) => "float"
  | .scalar (.text _) => "str"
  | .scalar (.date _) => "date"
  | .scalar (.dateTime _) => "datetime"
  | .scalar (.bytes _) => "bytes"
  | .list _ | .outerList => "list"
  | .pair _ _ => "tuple"
  | .map _ | .outerMap => "dict"
  | .set _ => "set"

end Value

end Splice
