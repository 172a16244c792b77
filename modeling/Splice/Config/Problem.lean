import Splice.Config.Hook

/-!
# Problems of a configuration

Each problem is recorded together with the option at which it was found, and all of them are
reported at once.

* `Config.Problem` — what is wrong with an option, and `Config.Finding` — where; and
* `Config.Finding.message` — the wording of a finding.
-/

namespace Splice.Config

/-- What is wrong with an option, or with the options as a whole. -/
inductive Problem where
  /-- The options cannot be read at all. -/
  | unreadable (reason : Text)
  /-- The options are no mapping. -/
  | notAMapping
  /-- The option is not a text. -/
  | notAText (typeName : Text)
  /-- The option is not a truth value. -/
  | notABool (typeName : Text)
  /-- The option is the empty text. -/
  | isEmpty
  /-- The variables are no mapping. -/
  | variablesNotAMapping
  /-- The name of a variable is not a text. -/
  | variableName (shown : Text)
  /-- The option is not a positive integer. -/
  | notPositive
  /-- The option names no hook. -/
  | hook (error : Hook.Error)
  /-- The files are no list. -/
  | filesNotAList
  /-- The entry is no mapping. -/
  | entryNotAMapping
  /-- The sources of an entry are neither a text nor a list of texts. -/
  | badSources
  /-- The destination of an entry is not a text, or it is empty. -/
  | badDest
  /-- The directory of an entry is not a text. -/
  | badCwd
deriving DecidableEq, Repr

/-- The wording of a problem. -/
def Problem.message : Problem → Text
  | .unreadable reason => "Failed to load configuration: " ++ reason
  | .notAMapping => "Configuration must be a YAML object/dictionary"
  | .notAText typeName => "must be a string, got " ++ typeName
  | .notABool typeName => "must be a boolean, got " ++ typeName
  | .isEmpty => "must not be empty"
  | .variablesNotAMapping => "must be a mapping of variable names to values"
  | .variableName shown => "variable name " ++ shown ++ " must be a string"
  | .notPositive => "must be a positive integer"
  | .hook error => error.message
  | .filesNotAList => "must be a list of \x7bsrc, dest\x7d mappings"
  | .entryNotAMapping => "must be a dictionary"
  | .badSources => "'src' must be a glob pattern or a list of glob patterns"
  | .badDest => "'dest' must be a non-empty string"
  | .badCwd => "'cwd' must be a string"

/-- A problem and the option at which it was found (`ValidationError`); the option is empty if there
is none. -/
structure Finding where
  /-- The option. -/
  path : Text
  /-- The problem. -/
  problem : Problem
deriving DecidableEq, Repr

/-- The wording of a finding. -/
def Finding.message (finding : Finding) : Text :=
  let place : Text := if finding.path.isEmpty then [] else " at '" ++ finding.path ++ "'"
  "Validation error" ++ place ++ ": " ++ finding.problem.message

end Splice.Config
