import Splice.Config.Basic
import Splice.Config.Problem
import Splice.Value.Show

/-!
# Options as data

A configuration is read from a mapping of options. Several options have two spellings; of repeated
ones the last counts, and unknown ones are ignored. All problems are collected before anything is
refused.

* `Config.effectiveOptions` — the last value given for each option;
* `Config.Loader` — a loader, which collects the problems; and
* `Config.ofValue` — the configuration, or what is wrong with the options.
-/

namespace Splice.Config

/-! ## Names -/

/-- The options that are texts, in the order in which they are checked. -/
def textOptions : List Text := ["prefix", "suffix", "includes_dir", "docroot", "encoding"]

/-- The options that are truth values, in the order in which they are checked. -/
def boolOptions : List Text := ["use_mustache", "always_unescaped", "expand_values"]

/-- The options of other kinds. -/
def otherOptions : List Text := ["globals", "max_depth", "process_include_contents", "files"]

/-- All options. -/
def knownOptions : List Text := textOptions ++ boolOptions ++ otherOptions

/-- Other spellings of options. -/
def spellings : Bindings Text :=
  [("includesDir", "includes_dir"), ("useMustache", "use_mustache"),
    ("useTemplatingBackend", "use_mustache"), ("alwaysUnescaped", "always_unescaped"),
    ("processIncludeContents", "process_include_contents"), ("expandValues", "expand_values"),
    ("maxDepth", "max_depth")]

/-- The option that a key spells, if it is one. -/
def optionOf? : Scalar → Option Text
  | .text key =>
      let name := (Bindings.get? key spellings).getD key
      if knownOptions.contains name then some name else none
  | _ => none

/-- An option, or an item of one that is a list. A mapping that encloses it can only be that of the
options itself. -/
def unfolded (entries : List (Scalar × Value)) : Value → Value
  | .outerMap => .map entries
  | value => value

/-- The value of an option, with the mapping of the options in place of what refers to it. -/
def optionValue (entries : List (Scalar × Value)) : Value → Value
  | .list items => .list (items.map (unfolded entries))
  | value => unfolded entries value

/-- The last value given for each option. -/
def effectiveOptions (entries : List (Scalar × Value)) : Bindings Value :=
  Bindings.ofList (entries.filterMap fun (key, value) =>
    (optionOf? key).map fun name => (name, optionValue entries value))

/-! ## Single options -/

/-- What was read, with the problems found. -/
structure Checked (α : Type) where
  /-- The problems found. -/
  findings : List Finding := []
  /-- What was read, or a default if there are problems. -/
  value : α

/-- A text option. -/
def checkText (options : Bindings Value) (name default : Text) : Checked Text :=
  match Bindings.get? name options with
  | none => { value := default }
  | some value =>
      match value.toText? with
      | some text => { value := text }
      | none => { findings := [⟨name, .notAText value.typeName⟩], value := default }

/-- The opener of placeholders has to be a text that is not empty; the latter is checked after all
texts. -/
def checkOpenerNotEmpty (options : Bindings Value) : List Finding :=
  match (Bindings.get? "prefix" options).bind Value.toText? with
  | some [] => [⟨"prefix", .isEmpty⟩]
  | _ => []

/-- A truth value. -/
def checkBool (options : Bindings Value) (name : Text) (default : Bool) : Checked Bool :=
  match Bindings.get? name options with
  | none => { value := default }
  | some (.scalar (.bool b)) => { value := b }
  | some value => { findings := [⟨name, .notABool value.typeName⟩], value := default }

/-- The names of variables have to be texts. -/
def checkNames : List (Scalar × Value) → Checked (Bindings Value)
  | [] => { value := [] }
  | (.text name, value) :: entries =>
      let rest := checkNames entries
      { rest with value := (name, value) :: rest.value }
  | (key, _) :: entries =>
      let rest := checkNames entries
      { rest with findings := ⟨"globals", .variableName key.shown⟩ :: rest.findings }

/-- The global variables: a mapping, or nothing. -/
def checkGlobals (options : Bindings Value) : Checked (Bindings Value) :=
  match Bindings.get? "globals" options with
  | none | some (.scalar .null) => { value := [] }
  | some (.map entries) => checkNames entries
  | some _ => { findings := [⟨"globals", .variablesNotAMapping⟩], value := [] }

/-- The bound on the depth: an integer that is positive. -/
def checkDepth (options : Bindings Value) : Checked Int :=
  match Bindings.get? "max_depth" options with
  | none => { value := 100 }
  | some (.scalar (.int n)) =>
      if 1 ≤ n then { value := n } else { findings := [⟨"max_depth", .notPositive⟩], value := 100 }
  | some _ => { findings := [⟨"max_depth", .notPositive⟩], value := 100 }

/-- The name of the hook option. -/
def hookOption : Text := "process_include_contents"

/-- The hook: the name of one, or nothing. An error that ends the reading is given as such. -/
def checkHook (modules : List Hook.Module) (options : Bindings Value) :
    Except Hook.Error (Checked (Option Hook)) :=
  let refused (error : Hook.Error) : Except Hook.Error (Checked (Option Hook)) :=
    if error.isFatal then .error error
    else .ok { findings := [⟨hookOption, .hook error⟩], value := none }
  match Bindings.get? hookOption options with
  | none | some (.scalar .null) => .ok { value := none }
  | some value =>
      match value.toText? with
      | none => refused .notAName
      | some target =>
          match Hook.find modules target with
          | .ok hook => .ok { value := some hook }
          | .error error => refused error

/-! ## Files -/

/-- The texts of values, if all of them are texts. -/
def allTexts? (values : List Value) : Option (List Text) := values.mapM Value.toText?

/-- The sources of an entry: one pattern, or a list of patterns that is not empty. -/
def sources? (entries : List (Scalar × Value)) : Option (List Text) :=
  match Value.getEntry? "src" entries with
  | some (.scalar (.text pattern)) => some [pattern]
  | some (.list (value :: values)) => allTexts? (value :: values)
  | _ => none

/-- The directory of an entry; the empty one is none. -/
def cwd? (entries : List (Scalar × Value)) : Option (Option Text) :=
  match Value.getEntry? "cwd" entries with
  | none | some (.scalar .null) => some none
  | some (.scalar (.text directory)) => some (if directory.isEmpty then none else some directory)
  | _ => none

/-- A mapping of files, or the first problem of its entry. -/
def checkMapping (entry : Value) : Except Problem FileMapping :=
  match entry with
  | .map entries =>
      match sources? entries with
      | none => .error .badSources
      | some sources =>
          match Value.getEntry? "dest" entries with
          | some (.scalar (.text (c :: dest))) =>
              match cwd? entries with
              | none => .error .badCwd
              | some cwd => .ok ⟨sources, c :: dest, cwd⟩
          | _ => .error .badDest
  | _ => .error .entryNotAMapping

/-- The mappings of the entries from the one with number `index` on. -/
def checkMappings (index : Nat) : List Value → Checked (List FileMapping)
  | [] => { value := [] }
  | entry :: entries =>
      let rest := checkMappings (index + 1) entries
      match checkMapping entry with
      | .ok mapping => { rest with value := mapping :: rest.value }
      | .error problem =>
          let path : Text := "files[" ++ Text.ofNat index ++ "]"
          { rest with findings := ⟨path, problem⟩ :: rest.findings }

/-- The files (`_validate_files`): a list of entries, or nothing. -/
def checkFiles (options : Bindings Value) : Checked (List FileMapping) :=
  match Bindings.get? "files" options with
  | none | some (.scalar .null) => { value := [] }
  | some (.list entries) => checkMappings 0 entries
  | some _ => { findings := [⟨"files", .filesNotAList⟩], value := [] }

/-! ## All options -/

/-- Why options make no configuration. -/
inductive OptionsError where
  /-- They have problems. -/
  | invalid (findings : List Finding)
  /-- The name of the hook cannot be looked up. -/
  | hook (error : Hook.Error)
deriving DecidableEq, Repr

/-- A loader (`ConfigLoader`). It keeps the problems that were found when it was last used. -/
structure Loader where
  /-- The problems found so far. -/
  findings : List Finding := []

/-- A step of a loader, which may end the loading. -/
abbrev Loading (α : Type) := ExceptT OptionsError (StateM Loader) α

/-- Records the problems that were found with an option (`_add_error`). -/
def record {α : Type} (checked : Checked α) : Loading α := do
  modify fun loader => { findings := loader.findings ++ checked.findings }
  return checked.value

/-- Refuses the options because of everything that is recorded (`_raise_validation_errors`). -/
def refuse : Loading Config := do throw (.invalid (← get).findings)

/-- The configuration that some options make. The hook is looked up in `modules`. -/
def readOptions (modules : List Hook.Module) (options : Bindings Value) : Loading Config := do
  let opener ← record (checkText options "prefix" "@@")
  let closer ← record (checkText options "suffix" "")
  let includesDir ← record (checkText options "includes_dir" "")
  let docroot ← record (checkText options "docroot" ".")
  let encoding ← record (checkText options "encoding" "utf-8")
  record ⟨checkOpenerNotEmpty options, ()⟩
  let useMustache ← record (checkBool options "use_mustache" true)
  let alwaysUnescaped ← record (checkBool options "always_unescaped" false)
  let expandValues ← record (checkBool options "expand_values" true)
  let globals ← record (checkGlobals options)
  let maxDepth ← record (checkDepth options)
  -- A hook whose name has no root ends the reading here; all the rest is only recorded.
  let checkedHook ← MonadExcept.ofExcept ((checkHook modules options).mapError OptionsError.hook)
  let hook ← record checkedHook
  let files ← record (checkFiles options)
  if (← get).findings.isEmpty then
    return {
      delimiters := ⟨opener, closer⟩
      globals, includesDir, docroot, encoding, useMustache, alwaysUnescaped, hook, expandValues,
      maxDepth, files }
  else refuse

/-- The configuration that a value describes (`from_dict`); it has to be a mapping of options. What
a loader found before is forgotten. -/
def readValue (modules : List Hook.Module) (value : Value) : Loading Config := do
  set ({} : Loader)
  match value with
  | .map entries => readOptions modules (effectiveOptions entries)
  | _ => do
      record ⟨[⟨[], .notAMapping⟩], ()⟩
      refuse

/-- The configuration that a new loader reads from a value. -/
def ofValue (modules : List Hook.Module) (value : Value) : Except OptionsError Config :=
  ((readValue modules value).run.run {}).1

end Splice.Config
