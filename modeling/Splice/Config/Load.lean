import Splice.Config.Options
import Splice.Tree.File
import Splice.Yaml.Document

/-!
# Configuration files

A configuration file is a YAML document that holds a mapping of options, or nothing at all.

* `Config.LoadError` — why a file holds no configuration; and
* `Config.load` — the configuration in a file.

A file that cannot be opened and a document that is malformed are reported like problems of options.
-/

namespace Splice.Config

/-- Why a file holds no configuration. -/
inductive LoadError where
  /-- The options have problems, or there are none. -/
  | options (error : OptionsError)
  /-- The file holds no text. -/
  | file (error : File.Error)
  /-- A scalar of the document has no value. -/
  | document (error : Yaml.Error)
deriving DecidableEq, Repr

/-- The report of a file that cannot be read. -/
def unreadable (reason : Text) : LoadError := .options (.invalid [⟨[], .unreadable reason⟩])

/-- The bytes at the end of a file that are an incomplete character are looked at by themselves, so
that their places count from zero. -/
def fileError : File.Error → LoadError
  | .tree fault path => unreadable (File.Error.tree fault path).message
  | .encoding (.undecodable encoding .ending byte start stop) =>
      .file (.encoding (.undecodable encoding .ending byte 0 (stop - start)))
  | e => .file e

/-- The configuration in the text of a file. -/
def ofText (modules : List Hook.Module) (text : Text) : Except LoadError Config :=
  match Yaml.parse text with
  | .error .malformed => .error (unreadable Yaml.Error.malformed.message)
  | .error e => .error (.document e)
  | .ok (.scalar .null) => (ofValue modules (.map [])).mapError .options
  | .ok value => (ofValue modules value).mapError .options

/-- The configuration in a file (`load`). -/
def load (modules : List Hook.Module) (tree : Tree) (path : Text) : Except LoadError Config := do
  let text ← (File.readLines tree path).mapError fileError
  ofText modules text

end Splice.Config
