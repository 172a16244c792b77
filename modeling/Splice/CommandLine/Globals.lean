import Splice.CommandLine.Arguments
import Splice.Json.Parser
import Splice.Tree.File
import Splice.Value.Basic

/-!
# Global variables of a command line

Global variables are read from a JSON file first and then from single arguments, so that the latter
count.

* `CommandLine.GlobalsError` — why there are none; and
* `CommandLine.readGlobals` — the variables, in the order in which they are first bound.
-/

namespace Splice.CommandLine

/-- Why global variables cannot be read. -/
inductive GlobalsError where
  /-- The file does not exist. -/
  | noFile (path : Text)
  /-- The file cannot be read. -/
  | file (error : File.Error)
  /-- The file holds no JSON value. -/
  | json (error : Json.Error)
  /-- The file holds a value that is no object. -/
  | notAnObject (typeName : Text)
  /-- An argument binds no name. -/
  | badItem (item : Text)
deriving DecidableEq, Repr

/-- The wording of an error. -/
def GlobalsError.message : GlobalsError → Text
  | .noFile path => "Globals file not found: " ++ path
  | .file error => error.message
  | .json error => error.message
  | .notAnObject typeName => "Globals file must contain a JSON object, got " ++ typeName
  | .badItem item => "Invalid global format: " ++ item ++ ". Expected KEY=VALUE"

/-- The variables in a file. -/
def readGlobalsFile (tree : Tree) (path : Text) : Except GlobalsError (Bindings Value) := do
  let path := Path.plain path
  if !tree.has path then throw (.noFile path)
  let text ← (File.readLines tree path).mapError .file
  match ← (Json.parse text).mapError .json with
  | .obj fields => return fields.map fun (name, value) => (name, Value.ofJson value)
  | other => throw (.notAnObject (Value.ofJson other).typeName)

/-- The variable that an argument binds. -/
def readItem (item : Text) : Except GlobalsError (Text × Value) :=
  match Text.cut? '=' item with
  | some (name, value) => .ok (name, .ofText value)
  | none => .error (.badItem item)

/-- The variables that a command line binds (`parse_globals`). -/
def readGlobals (tree : Tree) (source : GlobalsSource) : Except GlobalsError (Bindings Value) := do
  let fromFile ← match source.file with
    | some path => readGlobalsFile tree path
    | none => .ok []
  let items ← source.items.mapM readItem
  return Bindings.overlay fromFile items

end Splice.CommandLine
