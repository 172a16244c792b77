import Splice.Config.Options

/-!
# What a loader does

A loader works off the options one after the other and keeps the problems of all of them. Unless the
look-up of the hook ends the loading at once, it returns what the single options make, or refuses
them because of all that was found.

* `Config.findingsOf`, `Config.configOf` — the problems of all options, and the configuration that
  they make;
* `Config.readOptions_eq` — what a loader does with options; and
* `Config.readValue_map` — what it does with a value, whatever it found before.
-/

namespace Splice.Config

variable {modules : List Hook.Module} {options : Bindings Value} {hook : Checked (Option Hook)}

/-- The problems of all options, in the order in which these are checked. -/
def findingsOf (options : Bindings Value) (hook : Checked (Option Hook)) : List Finding :=
  (checkText options "prefix" "@@").findings ++ (checkText options "suffix" "").findings
    ++ (checkText options "includes_dir" "").findings ++ (checkText options "docroot" ".").findings
    ++ (checkText options "encoding" "utf-8").findings ++ checkOpenerNotEmpty options
    ++ (checkBool options "use_mustache" true).findings
    ++ (checkBool options "always_unescaped" false).findings
    ++ (checkBool options "expand_values" true).findings ++ (checkGlobals options).findings
    ++ (checkDepth options).findings ++ hook.findings ++ (checkFiles options).findings

/-- The configuration that the options make if none has a problem. -/
def configOf (options : Bindings Value) (hook : Option Hook) : Config where
  delimiters := ⟨(checkText options "prefix" "@@").value, (checkText options "suffix" "").value⟩
  globals := (checkGlobals options).value
  includesDir := (checkText options "includes_dir" "").value
  docroot := (checkText options "docroot" ".").value
  encoding := (checkText options "encoding" "utf-8").value
  useMustache := (checkBool options "use_mustache" true).value
  alwaysUnescaped := (checkBool options "always_unescaped" false).value
  hook := hook
  expandValues := (checkBool options "expand_values" true).value
  maxDepth := (checkDepth options).value
  files := (checkFiles options).value

/-- What a loader returns in the end: a configuration, or the refusal of everything that it
found. -/
def settled (findings : List Finding) (config : Config) : Except OptionsError Config :=
  if findings.isEmpty then .ok config else .error (.invalid findings)

theorem settled_nil (config : Config) : settled [] config = .ok config := rfl

theorem settled_of_ne_nil {findings : List Finding} (h : findings ≠ []) (config : Config) :
    settled findings config = .error (.invalid findings) :=
  if_neg (mt List.isEmpty_iff.mp h)

/-- A check hands on its value and keeps its problems. -/
theorem run_record {α β : Type} (checked : Checked α) (next : α → Loading β) (loader : Loader) :
    (record checked >>= next).run.run loader =
      (next checked.value).run.run ⟨loader.findings ++ checked.findings⟩ := by
  rfl

/-- An option whose look-up ends the loading hides what was found. -/
theorem readOptions_error {error : Hook.Error} (h : checkHook modules options = .error error)
    (loader : Loader) :
    ((readOptions modules options).run.run loader).1 = .error (.hook error) := by
  unfold readOptions
  rw [h]
  rfl

/-- Otherwise everything is found. -/
theorem readOptions_eq (h : checkHook modules options = .ok hook) (loader : Loader) :
    (readOptions modules options).run.run loader =
      (settled (loader.findings ++ findingsOf options hook) (configOf options hook.value),
        ⟨loader.findings ++ findingsOf options hook⟩) := by
  have hhook : (MonadExcept.ofExcept ((checkHook modules options).mapError OptionsError.hook) :
      Loading (Checked (Option Hook))) = pure hook := by
    rw [h]
    rfl
  unfold readOptions
  simp only [hhook, pure_bind, run_record, findingsOf, List.append_assoc, settled]
  generalize loader.findings ++ _ = findings
  cases findings <;> rfl

theorem run_reset {α : Type} (next : Loading α) (loader : Loader) :
    ((set ({} : Loader) : Loading PUnit) >>= fun _ => next).run.run loader = next.run.run {} := rfl

/-- What a loader reads from a mapping of options, whatever it found before. -/
theorem readValue_map (modules : List Hook.Module) (entries : List (Scalar × Value))
    (loader : Loader) :
    (readValue modules (.map entries)).run.run loader =
      (readOptions modules (effectiveOptions entries)).run.run {} := by
  unfold readValue
  exact run_reset _ _

theorem ofValue_map (modules : List Hook.Module) (entries : List (Scalar × Value)) :
    ofValue modules (.map entries) =
      ((readOptions modules (effectiveOptions entries)).run.run {}).1 := by
  rw [ofValue, readValue_map]

end Splice.Config
