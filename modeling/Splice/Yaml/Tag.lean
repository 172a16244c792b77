import Splice.Encoding.Base64
import Splice.Value.Basic
import Splice.Yaml.Number
import Splice.Yaml.Timestamp

/-!
# Tags

The tag of a node is the type of its value. A node may name its tag; otherwise a plain scalar gets
the tag that its form suggests, and any other node that of a text, a list or a mapping.

* `Yaml.Tag` — the tags, with `Tag.ofName`;
* `Yaml.Tag.resolve` — the tag that the form of a scalar suggests; and
* `Yaml.Tag.construct` — the value of a scalar with a tag.
-/

namespace Splice.Yaml

/-- The type of a value. -/
inductive Tag where
  /-- Nothing. -/
  | null
  /-- A truth value. -/
  | bool
  /-- An integer. -/
  | int
  /-- A floating-point number. -/
  | float
  /-- Bytes. -/
  | binary
  /-- A date or a time. -/
  | timestamp
  /-- A text. -/
  | str
  /-- A list. -/
  | seq
  /-- A mapping. -/
  | map
  /-- A set. -/
  | set
  /-- An ordered list of pairs. -/
  | pairs
  /-- The key whose value is merged into the mapping. -/
  | merge
  /-- The key whose value stands for the whole mapping. -/
  | value
  /-- Any other type; nothing has such a value. -/
  | unknown
deriving DecidableEq, Repr

namespace Tag

/-- The names of the tags, without what they all begin with. -/
def names : List (Text × Tag) := [
  ("null", .null), ("bool", .bool), ("int", .int), ("float", .float), ("binary", .binary),
  ("timestamp", .timestamp), ("str", .str), ("seq", .seq), ("map", .map), ("set", .set),
  ("omap", .pairs), ("pairs", .pairs), ("merge", .merge), ("value", .value)]

/-- What the names of all tags begin with. -/
def lead : Text := "tag:yaml.org,2002:"

/-- The tag with a name. -/
def ofName (name : Text) : Tag :=
  match Text.dropLead? lead name with
  | none => .unknown
  | some rest => (names.lookup rest).getD .unknown

/-- The words for truth values that a plain scalar may be. -/
def plainTruthWords : List Text := ["true", "True", "TRUE", "false", "False", "FALSE"]

/-- The words for nothing that a plain scalar may be. -/
def nullWords : List Text := ["~", "null", "Null", "NULL"]

/-- The signs that begin other nodes and are no scalars. -/
def signs : List Text := ["!", "&", "*"]

/-- The tag that the form of a scalar suggests. One line feed at the end does not count. -/
def resolve (text : Text) : Tag :=
  let form := Text.dropFinalBreak text
  if text.isEmpty then .null
  else if plainTruthWords.contains form then .bool
  else if isFloat form then .float
  else if isInteger form then .int
  else if form = ("<<" : Text) then .merge
  else if nullWords.contains form then .null
  else if isTimestamp form then .timestamp
  else if form = ("=" : Text) then .value
  else if signs.contains form then .unknown
  else .str

/-- The words for truth values, in small letters. -/
def truthWords : List (Text × Bool) := [
  ("yes", true), ("no", false), ("true", true), ("false", false), ("on", true), ("off", false)]

/-- The truth value that a word stands for. -/
def truth (text : Text) : Except Error Bool :=
  let word := Text.lower text
  match truthWords.lookup word with
  | some b => .ok b
  | none => .error (.notATruthValue word)

/-- The bytes that an ASCII text stands for. -/
def bytes (text : Text) : Except Error Bytes :=
  if text.all (·.toNat < 128) then
    match Encoding.decodeBase64? text with
    | some bytes => .ok bytes
    | none => .error .malformed
  else .error .malformed

/-- Do collections have the tag? -/
def isCollection : Tag → Bool
  | .seq | .map | .set | .pairs => true
  | _ => false

/-- The value of a text with a tag. -/
def construct (tag : Tag) (text : Text) : Except Error Scalar :=
  match tag with
  | .null => .ok .null
  | .bool => (truth text).map .bool
  | .int => (integer text).map .int
  | .float => (Yaml.float text).map .float
  | .binary => (bytes text).map .bytes
  | .timestamp =>
      (Yaml.timestamp text).map fun
        | .inl date => .date date
        | .inr time => .dateTime time
  | .str => .ok (.text text)
  | _ => .error .malformed

end Tag

end Splice.Yaml
