import Splice.Bindings
import Splice.Json.Basic

/-!
# Hooks

A hook is a function that sees every included text once it has been expanded. A configuration names
a hook by a module and a member of it.

* `Hook` — a hook, and `Hook.Failure` — how it may fail;
* `Hook.Module` — the members of a module; and
* `Hook.find` — the hook that a name stands for, or why there is none.
-/

namespace Splice

/-- How a hook fails: the classes of errors that commands tell apart. -/
inductive Hook.Failure where
  /-- With an error of the program, which has an exit code of its own. -/
  | own (code : Nat) (message : Text)
  /-- With problems of a configuration, one line for each, and their exit code. -/
  | problems (code : Nat) (lines : List Text)
  /-- With a file that does not exist. -/
  | missing (message : Text)
  /-- With something that is not valid. -/
  | invalid (message : Text)
  /-- With any other error. -/
  | other (message : Text)
  /-- With what is no error, but is to end the program at once. -/
  | leaving (message : Text)
deriving DecidableEq, Repr

/-- The wording of a failure. -/
def Hook.Failure.message : Hook.Failure → Text
  | .own _ message | .missing message | .invalid message | .other message | .leaving message =>
      message
  | .problems _ lines => List.intercalate ['\n'] lines

/-- A function on included texts. -/
structure Hook where
  /-- Its name. -/
  name : Text
  /-- The text to go on with and the variables as the hook leaves them, given an expanded text, the
  variables of its directive and the path of its file; or how it fails. -/
  apply : Text → Bindings Json → Text → Except Hook.Failure (Text × Bindings Json)

namespace Hook

/-- A module that hooks may be taken from: its members, of which those without a hook are values
that cannot be called. -/
structure Module where
  /-- The name of the module. -/
  name : Text
  /-- Its members by name. -/
  members : Bindings (Option Hook)

/-- Why a name stands for no hook. -/
inductive Error where
  /-- The name does not have the form `module:member`. -/
  | notAName
  /-- No module has this name. -/
  | noModule (target name : Text)
  /-- The module that is named as a package is none. -/
  | noPackage (target name package : Text)
  /-- The module has no such member. -/
  | noMember (target module member : Text)
  /-- The member cannot be called. -/
  | notCallable (target : Text)
  /-- The name of the module is empty. -/
  | emptyModule
  /-- The name of the module begins with a dot. -/
  | relativeModule (name : Text)
deriving DecidableEq, Repr

/-- The wording of an error. -/
def Error.message : Error → Text
  | .notAName => "must be an import string like 'package.module:function'"
  | .noModule target name =>
      "cannot import " ++ target ++ ": No module named '" ++ name ++ "'"
  | .noPackage target name package =>
      "cannot import " ++ target ++ ": No module named '" ++ name ++ "'; '" ++ package
        ++ "' is not a package"
  | .noMember target module member =>
      "cannot import " ++ target ++ ": module '" ++ module ++ "' has no attribute '"
        ++ member ++ "'"
  | .notCallable target => target ++ " is not callable"
  | .emptyModule => "Empty module name"
  | .relativeModule name =>
      "the 'package' argument is required to perform a relative import for '" ++ name ++ "'"

/-- The module with this name. A name with dots begins with the name of a package; no known module
is one. -/
def findModule (modules : List Module) (target name : Text) : Except Error Module :=
  match name with
  | [] => .error .emptyModule
  | '.' :: _ => .error (.relativeModule name)
  | _ =>
      match modules.find? fun m => m.name == name with
      | some found => .ok found
      | none =>
          let first := (Text.pieces '.' name).headD []
          if first = name then .error (.noModule target name)
          else if modules.any fun m => m.name == first then
            .error (.noPackage target (first ++ '.' :: ((Text.pieces '.' name).drop 1).headD [])
              first)
          else .error (.noModule target first)

/-- The hook that a name stands for (`_resolve_hook`). -/
def find (modules : List Module) (target : Text) : Except Error Hook :=
  match Text.cut? ':' target with
  | none => .error .notAName
  | some (moduleName, member) =>
      match findModule modules target moduleName with
      | .error e => .error e
      | .ok found =>
          match Bindings.get? member found.members with
          | none => .error (.noMember target moduleName member)
          | some none => .error (.notCallable target)
          | some (some hook) => .ok hook

/-- Does the error end the loading of a configuration at once? The others are collected. -/
def Error.isFatal : Error → Bool
  | .emptyModule | .relativeModule _ => true
  | _ => false

end Hook

end Splice
