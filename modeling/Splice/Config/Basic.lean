import Splice.Config.Hook
import Splice.Delimiters
import Splice.Value.Show

/-!
# Configurations

The options of a run.

* `FileMapping` — which files are processed, and where they are written;
* `Config` — all options with their defaults;
* `Config.withGlobals` — a configuration with further global variables; and
* `Config.isShowable` — can the options be reported?
-/

namespace Splice

/-- Source patterns and the destination their files are written to (`FileMapping`). -/
structure FileMapping where
  /-- The patterns, seen from the directory of the mapping. -/
  sources : List Text
  /-- The destination; one that ends with a slash is a directory. -/
  dest : Text
  /-- The directory of the mapping, if it has one. -/
  cwd : Option Text := none
deriving DecidableEq, Repr

/-- The options of a run (`Configuration`). -/
structure Config where
  /-- What stands around placeholders and directives. -/
  delimiters : Delimiters := {}
  /-- The global variables. -/
  globals : Bindings Value := []
  /-- The directory in which relative include paths start; if empty, the directory of the including
  file. -/
  includesDir : Text := []
  /-- The directory to which the variable `docroot` leads. -/
  docroot : Text := "."
  /-- The name of the encoding of all documents. -/
  encoding : Text := "utf-8"
  /-- Are documents rendered as templates? -/
  useMustache : Bool := true
  /-- Are values inserted into templates without escaping? -/
  alwaysUnescaped : Bool := false
  /-- The hook for included texts. -/
  hook : Option Hook := none
  /-- Are references in local values expanded? -/
  expandValues : Bool := true
  /-- How deep includes may nest. -/
  maxDepth : Int := 100
  /-- The files to process. -/
  files : List FileMapping := []

/-- The configuration with further global variables laid over its own (`with_globals`). -/
def Config.withGlobals (config : Config) (extra : Bindings Value) : Config :=
  { config with globals := Bindings.overlay config.globals extra }

/-- Can all options be shown? Integers stand among the global variables, and one is the bound on the
depth. -/
def Config.isShowable (config : Config) : Bool :=
  (Scalar.int config.maxDepth).isShowable && config.globals.all fun (_, value) => value.isShowable

end Splice
