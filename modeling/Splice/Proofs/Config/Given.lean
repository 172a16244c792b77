import Mathlib.Data.List.Forall2
import Splice.Proofs.Bindings
import Splice.Proofs.Config.Collecting

/-!
# Options that are given

What the options of a configuration say, and what is read from it.

* `Config.Given` — the last value given for an option, under any of its spellings;
* `Config.IsMapping` — a mapping among the options, which may be that of the options itself;
* `Config.ReadsText`, `Config.ReadsVariables`, `Config.ReadsFiles` and their like — what a value of
  an option stands for; and
* `Config.Checks` — a check reads the given value, or the default, or finds a problem.
-/

namespace Splice

theorem Text.cut?_eq_some_iff {sep : Char} {text before after : Text} :
    cut? sep text = some (before, after) ↔ text = before ++ sep :: after ∧ sep ∉ before := by
  induction text generalizing before with
  | nil => simp [cut?]
  | cons c text ih =>
    rw [cut?]
    split
    · rename_i hc
      subst hc
      cases before with
      | nil => simp
      | cons d before => simp +contextual [eq_comm]
    · rename_i hc
      cases before with
      | nil => simp [hc]
      | cons d before =>
        rw [Option.map_eq_some_iff, List.mem_cons, not_or]
        constructor
        · rintro ⟨⟨front, rest⟩, hcut, heq⟩
          cases heq
          obtain ⟨rfl, hnot⟩ := ih.mp hcut
          exact ⟨rfl, Ne.symm hc, hnot⟩
        · rintro ⟨heq, -, hnot⟩
          obtain ⟨rfl, rfl⟩ := List.cons.inj heq
          exact ⟨_, ih.mpr ⟨rfl, hnot⟩, rfl⟩

namespace Hook

variable {modules : List Module} {target : Text} {hook : Hook}

/-- The text is an import string: behind the name of a module and a colon stands the name of a
member of it that can be called. -/
def Resolves (modules : List Module) (target : Text) (hook : Hook) : Prop :=
  ∃ name member found, target = name ++ ':' :: member ∧ ':' ∉ name ∧
    modules.find? (fun m => m.name == name) = some found ∧
      Bindings.get? member found.members = some (some hook)

/-- A name that does not begin with a dot is that of the first known module that has it. -/
theorem findModule_eq_ok_iff {name : Text} {found : Module} (hnil : name ≠ [])
    (hdot : ∀ rest, name ≠ '.' :: rest) :
    findModule modules target name = .ok found ↔
      modules.find? (fun m => m.name == name) = some found := by
  unfold findModule
  split
  · exact absurd rfl hnil
  · rename_i rest
    exact absurd rfl (hdot rest)
  · cases modules.find? (fun m => m.name == name) with
    | some known => simp
    | none =>
      simp only [reduceCtorEq, iff_false]
      split
      · simp
      · split <;> simp

/-- A name that has a root stands for the hook to which it resolves. -/
theorem find_eq_ok_iff (hroot : ¬ IsRootless target) :
    find modules target = .ok hook ↔ Resolves modules target hook := by
  -- The name of the module has a root if the whole name has one.
  have hrooted {name member : Text} (htarget : target = name ++ ':' :: member) :
      name ≠ [] ∧ ∀ rest, name ≠ '.' :: rest := by
    have hcolon : ':' ∈ target := by simp [htarget]
    refine ⟨?_, ?_⟩
    · rintro rfl
      exact hroot ⟨hcolon, .inl (by simp [htarget])⟩
    · rintro rest rfl
      exact hroot ⟨hcolon, .inr (by simp [htarget])⟩
  constructor
  · intro h
    unfold find at h
    split at h
    · cases h
    · rename_i name member hcut
      obtain ⟨htarget, hcolon⟩ := Text.cut?_eq_some_iff.mp hcut
      obtain ⟨hnil, hdot⟩ := hrooted htarget
      split at h
      · cases h
      · rename_i found hfound
        split at h
        · cases h
        · cases h
        · rename_i hmember
          cases h
          exact ⟨name, member, found, htarget, hcolon, (findModule_eq_ok_iff hnil hdot).mp hfound,
            hmember⟩
  · rintro ⟨name, member, found, htarget, hcolon, hfound, hmember⟩
    obtain ⟨hnil, hdot⟩ := hrooted htarget
    rw [find, Text.cut?_eq_some_iff.mpr ⟨htarget, hcolon⟩]
    simp only [(findModule_eq_ok_iff hnil hdot).mpr hfound, hmember]

end Hook

namespace Config

/-! ### Values of options -/

/-- The last value given for an option, under any of its spellings. -/
def Given (entries : List (Scalar × Value)) (name : Text) (value : Value) : Prop :=
  ∃ before key after, entries = before ++ (key, value) :: after ∧ optionOf? key = some name ∧
    ∀ item ∈ after, optionOf? item.1 ≠ some name

/-- The value is a mapping with these fields. One that encloses the value is that of the options. -/
inductive IsMapping (entries : List (Scalar × Value)) : Value → List (Scalar × Value) → Prop where
  /-- A mapping of its own. -/
  | own (fields : List (Scalar × Value)) : IsMapping entries (.map fields) fields
  /-- The options themselves. -/
  | outer : IsMapping entries .outerMap entries

variable {entries fields : List (Scalar × Value)} {name : Text} {value : Value}

theorem not_given_nil (name : Text) (value : Value) : ¬ Given [] name value := by
  rintro ⟨before, key, after, heq, -⟩
  simp at heq

/-- One more option is the one that is given if it is spelt by its key. -/
theorem given_concat_iff {key : Scalar} {last : Value} :
    Given (entries ++ [(key, last)]) name value ↔
      if optionOf? key = some name then value = last else Given entries name value := by
  constructor
  · rintro ⟨before, other, after, heq, hother, hafter⟩
    rcases after.eq_nil_or_concat' with rfl | ⟨after, item, rfl⟩
    · obtain ⟨rfl, hlast⟩ := List.append_inj' heq rfl
      cases List.head_eq_of_cons_eq hlast
      rw [if_pos hother]
    · rw [← List.cons_append, ← List.append_assoc] at heq
      obtain ⟨rfl, hlast⟩ := List.append_inj' heq rfl
      cases List.head_eq_of_cons_eq hlast
      rw [if_neg (hafter (key, last) (by simp))]
      exact ⟨before, other, after, rfl, hother, fun item hitem => hafter item (by simp [hitem])⟩
  · split
    · rintro rfl
      exact ⟨entries, key, [], rfl, ‹_›, by simp⟩
    · rename_i hkey
      rintro ⟨before, other, after, rfl, hother, hafter⟩
      refine ⟨before, other, after ++ [(key, last)], by simp, hother, ?_⟩
      intro item hitem
      rcases List.mem_append.mp hitem with hitem | hitem
      · exact hafter item hitem
      · rw [List.mem_singleton.mp hitem]
        exact hkey

theorem Given.unique {other : Value} (h : Given entries name value)
    (h' : Given entries name other) :
    value = other := by
  induction entries using List.reverseRecOn with
  | nil => exact absurd h (not_given_nil name value)
  | append_singleton entries item ih =>
    rw [given_concat_iff] at h h'
    split at h
    · rename_i hkey
      rw [if_pos hkey] at h'
      rw [h, h']
    · rename_i hkey
      rw [if_neg hkey] at h'
      exact ih h h'

theorem get?_effectiveOptions_iff :
    Bindings.get? name (effectiveOptions entries) = some value ↔
      ∃ given, Given entries name given ∧ optionValue entries given = value := by
  -- The options are bound from the first to the last, while the mapping that they refer to stays.
  suffices ∀ items, Bindings.get? name (Bindings.ofList (items.filterMap fun item =>
      (optionOf? item.1).map fun name => (name, optionValue entries item.2))) = some value ↔
        ∃ given, Given items name given ∧ optionValue entries given = value from this entries
  intro items
  induction items using List.reverseRecOn with
  | nil =>
    refine iff_of_false (by simp [Bindings.ofList, Bindings.overlay, Bindings.get?]) ?_
    rintro ⟨given, hgiven, -⟩
    exact not_given_nil name given hgiven
  | append_singleton items item ih =>
    obtain ⟨key, last⟩ := item
    simp only [given_concat_iff, List.filterMap_append]
    cases hkey : optionOf? key with
    | none => simpa [hkey] using ih
    | some other =>
      have hlast : ([(key, last)].filterMap fun item =>
          (optionOf? item.1).map fun name => (name, optionValue entries item.2)) =
            [(other, optionValue entries last)] := by simp [hkey]
      rw [hlast, Bindings.ofList, Bindings.get?_overlay_concat]
      by_cases hother : other = name
      · simp [hother]
      · simpa [hother, Bindings.ofList] using ih

theorem get?_of_given (h : Given entries name value) :
    Bindings.get? name (effectiveOptions entries) = some (optionValue entries value) :=
  get?_effectiveOptions_iff.mpr ⟨value, h, rfl⟩

theorem get?_of_not_given (h : ∀ value, ¬ Given entries name value) :
    Bindings.get? name (effectiveOptions entries) = none := by
  rw [Option.eq_none_iff_forall_not_mem]
  intro value hvalue
  obtain ⟨given, hgiven, -⟩ := get?_effectiveOptions_iff.mp hvalue
  exact h given hgiven

/-! ### What values stand for -/

/-- A text. -/
def ReadsText (value : Value) (text : Text) : Prop := value = .scalar (.text text)

/-- A truth value. -/
def ReadsFlag (value : Value) (flag : Bool) : Prop := value = .scalar (.bool flag)

/-- Nothing, or a mapping all of whose keys are texts. -/
def ReadsVariables (entries : List (Scalar × Value)) (value : Value) (bindings : Bindings Value) :
    Prop :=
  (value = .scalar .null ∧ bindings = []) ∨
    IsMapping entries value (bindings.map fun (name, value) => (.text name, value))

/-- A positive integer. -/
def ReadsDepth (value : Value) (depth : Int) : Prop := value = .scalar (.int depth) ∧ 1 ≤ depth

/-- Nothing, or an import string that resolves to a hook. -/
def ReadsHook (modules : List Hook.Module) (value : Value) (hook : Option Hook) : Prop :=
  (value = .scalar .null ∧ hook = none) ∨
    ∃ target found, value = .scalar (.text target) ∧ hook = some found ∧
      Hook.Resolves modules target found

/-- The sources of an entry: a text, or a list of texts that is not empty. -/
inductive ReadsSources : Option Value → List Text → Prop where
  /-- A single pattern. -/
  | one (pattern : Text) : ReadsSources (some (.scalar (.text pattern))) [pattern]
  /-- A list of patterns. -/
  | several (pattern : Text) (patterns : List Text) :
      ReadsSources (some (.list ((pattern :: patterns).map Value.ofText))) (pattern :: patterns)

/-- The destination of an entry: a text that is not empty. -/
def ReadsDest (value : Option Value) (dest : Text) : Prop :=
  value = some (.scalar (.text dest)) ∧ dest ≠ []

/-- The directory of an entry: nothing, or a text; the empty one stands for nothing. -/
inductive ReadsCwd : Option Value → Option Text → Prop where
  /-- It is not there. -/
  | absent : ReadsCwd none none
  /-- It is nothing. -/
  | null : ReadsCwd (some (.scalar .null)) none
  /-- It is empty. -/
  | empty : ReadsCwd (some (.scalar (.text []))) none
  /-- It is a directory. -/
  | directory (directory : Text) (h : directory ≠ []) :
      ReadsCwd (some (.scalar (.text directory))) (some directory)

/-- An entry of the files. -/
def ReadsMapping (entries : List (Scalar × Value)) (item : Value) (mapping : FileMapping) : Prop :=
  ∃ fields, IsMapping entries item fields ∧
    ReadsSources (Value.getEntry? "src" fields) mapping.sources ∧
    ReadsDest (Value.getEntry? "dest" fields) mapping.dest ∧
    ReadsCwd (Value.getEntry? "cwd" fields) mapping.cwd

/-- Nothing, or a list of entries. -/
def ReadsFiles (entries : List (Scalar × Value)) (value : Value) (files : List FileMapping) :
    Prop :=
  (value = .scalar .null ∧ files = []) ∨
    ∃ items, value = .list items ∧ List.Forall₂ (ReadsMapping entries) items files

/-- The option is what its value stands for, or the default if no value is given. -/
def OptionIs {α : Type} (entries : List (Scalar × Value)) (name : Text) (Reads : Value → α → Prop)
    (default a : α) : Prop :=
  (∃ value, Given entries name value ∧ Reads value a) ∨
    (∀ value, ¬ Given entries name value) ∧ a = default

/-- A check of an option reads what its value stands for, or finds the problems of the value. -/
structure Checks {α : Type} (entries : List (Scalar × Value)) (name : Text)
    (Reads : Value → α → Prop) (default : α) (problems : Value → List Finding)
    (checked : Checked α) : Prop where
  absent : (∀ value, ¬ Given entries name value) → checked = ⟨[], default⟩
  given : ∀ value, Given entries name value →
    (∃ a, Reads value a ∧ checked = ⟨[], a⟩) ∨
      (∀ a, ¬ Reads value a) ∧ problems value ≠ [] ∧ checked.findings = problems value

namespace Checks

variable {α : Type} {default : α} {Reads : Value → α → Prop} {problems : Value → List Finding}
  {checked : Checked α}

/-- No problem is found just if the given value stands for something. -/
theorem findings_eq_nil_iff (h : Checks entries name Reads default problems checked) :
    checked.findings = [] ↔ ∀ value, Given entries name value → ∃ a, Reads value a := by
  constructor
  · intro hnil value hgiven
    rcases h.given value hgiven with ⟨a, ha, -⟩ | ⟨-, hne, heq⟩
    · exact ⟨a, ha⟩
    · exact absurd (heq.symm.trans hnil) hne
  · intro hreads
    by_cases hgiven : ∃ value, Given entries name value
    · obtain ⟨value, hgiven⟩ := hgiven
      obtain ⟨a, ha⟩ := hreads value hgiven
      rcases h.given value hgiven with ⟨a, -, heq⟩ | ⟨hnot, -⟩
      · rw [heq]
      · exact absurd ha (hnot a)
    · rw [h.absent (not_exists.mp hgiven)]

/-- Then it is what the option is. -/
theorem optionIs (h : Checks entries name Reads default problems checked)
    (hnil : checked.findings = []) :
    OptionIs entries name Reads default checked.value := by
  by_cases hgiven : ∃ value, Given entries name value
  · obtain ⟨value, hgiven⟩ := hgiven
    rcases h.given value hgiven with ⟨a, ha, heq⟩ | ⟨-, hne, heq⟩
    · rw [heq]
      exact .inl ⟨value, hgiven, ha⟩
    · exact absurd (heq.symm.trans hnil) hne
  · rw [h.absent (not_exists.mp hgiven)]
    exact .inr ⟨not_exists.mp hgiven, rfl⟩

/-- The problems that are found are those of a given value that stands for nothing. -/
theorem mem_findings_iff (h : Checks entries name Reads default problems checked)
    {finding : Finding} :
    finding ∈ checked.findings ↔
      ∃ value, Given entries name value ∧ (∀ a, ¬ Reads value a) ∧ finding ∈ problems value := by
  constructor
  · intro hmem
    by_cases hgiven : ∃ value, Given entries name value
    · obtain ⟨value, hgiven⟩ := hgiven
      rcases h.given value hgiven with ⟨a, -, heq⟩ | ⟨hnot, -, heq⟩
      · rw [heq] at hmem
        exact absurd hmem List.not_mem_nil
      · exact ⟨value, hgiven, hnot, heq ▸ hmem⟩
    · rw [h.absent (not_exists.mp hgiven)] at hmem
      exact absurd hmem List.not_mem_nil
  · rintro ⟨value, hgiven, hnot, hmem⟩
    rcases h.given value hgiven with ⟨a, ha, -⟩ | ⟨-, -, heq⟩
    · exact absurd ha (hnot a)
    · rwa [heq]

theorem length_findings_le (h : Checks entries name Reads default problems checked)
    (hproblems : ∀ value, Given entries name value → (problems value).length ≤ 1) :
    checked.findings.length ≤ 1 := by
  by_cases hgiven : ∃ value, Given entries name value
  · obtain ⟨value, hgiven⟩ := hgiven
    rcases h.given value hgiven with ⟨a, -, heq⟩ | ⟨-, -, heq⟩
    · simp [heq]
    · rw [heq]
      exact hproblems value hgiven
  · simp [h.absent (not_exists.mp hgiven)]

end Checks

/-! ### Single options -/

theorem toText?_optionValue (entries : List (Scalar × Value)) (value : Value) :
    (optionValue entries value).toText? = value.toText? := by
  cases value <;> rfl

theorem typeName_optionValue (entries : List (Scalar × Value)) (value : Value) :
    (optionValue entries value).typeName = value.typeName := by
  cases value <;> rfl

theorem optionValue_eq_scalar_iff {scalar : Scalar} :
    optionValue entries value = .scalar scalar ↔ value = .scalar scalar := by
  cases value <;> simp [optionValue, unfolded]

theorem optionValue_eq_map_iff : optionValue entries value = .map fields ↔
    IsMapping entries value fields := by
  constructor
  · intro h
    cases value with
    | map own =>
      cases h
      exact .own fields
    | outerMap =>
      cases h
      exact .outer
    | _ => cases h
  · rintro (_ | _) <;> rfl

theorem toText?_eq_none_iff : value.toText? = none ↔ ∀ text, ¬ ReadsText value text := by
  constructor
  · rintro hnone text rfl
    cases hnone
  · intro hnot
    rw [Option.eq_none_iff_forall_not_mem]
    exact fun text htext => hnot text (eq_of_toText? htext)

theorem checks_text (entries : List (Scalar × Value)) (name default : Text) :
    Checks entries name ReadsText default (fun value => [⟨name, .notAText value.typeName⟩])
      (checkText (effectiveOptions entries) name default) where
  absent h := by rw [checkText, get?_of_not_given h]
  given value hgiven := by
    rw [checkText, get?_of_given hgiven]
    simp only [toText?_optionValue, typeName_optionValue]
    cases htext : value.toText? with
    | some text => exact .inl ⟨text, eq_of_toText? htext, rfl⟩
    | none => exact .inr ⟨toText?_eq_none_iff.mp htext, List.cons_ne_nil _ _, rfl⟩

theorem checks_flag (entries : List (Scalar × Value)) (name : Text) (default : Bool) :
    Checks entries name ReadsFlag default (fun value => [⟨name, .notABool value.typeName⟩])
      (checkBool (effectiveOptions entries) name default) where
  absent h := by rw [checkBool, get?_of_not_given h]
  given value hgiven := by
    rw [checkBool, get?_of_given hgiven]
    split
    · rename_i hnone
      cases hnone
    · rename_i flag hflag
      exact .inl ⟨flag, optionValue_eq_scalar_iff.mp (Option.some.inj hflag), rfl⟩
    · rename_i other hnot hother
      cases hother
      refine .inr ⟨fun flag hflag => hnot flag ?_,
        List.cons_ne_nil _ _, by rw [typeName_optionValue]⟩
      rw [optionValue_eq_scalar_iff.mpr hflag]

theorem checks_depth (entries : List (Scalar × Value)) :
    Checks entries "max_depth" ReadsDepth 100 (fun _ => [⟨"max_depth", .notPositive⟩])
      (checkDepth (effectiveOptions entries)) where
  absent h := by rw [checkDepth, get?_of_not_given h]
  given value hgiven := by
    rw [checkDepth, get?_of_given hgiven]
    split
    · rename_i hnone
      cases hnone
    · rename_i n hn
      have hvalue := optionValue_eq_scalar_iff.mp (Option.some.inj hn)
      split
      · rename_i hpositive
        exact .inl ⟨n, ⟨hvalue, hpositive⟩, rfl⟩
      · rename_i hnot
        refine .inr ⟨?_, List.cons_ne_nil _ _, rfl⟩
        rintro depth ⟨hdepth, hpositive⟩
        cases hdepth.symm.trans hvalue
        exact hnot hpositive
    · rename_i other hnot hother
      cases hother
      refine .inr ⟨?_, List.cons_ne_nil _ _, rfl⟩
      rintro depth ⟨hdepth, -⟩
      exact hnot depth (optionValue_eq_scalar_iff.mpr hdepth)

/-! ### Global variables -/

/-- The names of a mapping of variables are read just if all of them are texts. -/
theorem checkNames_eq (fields : List (Scalar × Value)) :
    (∃ bindings : Bindings Value, fields = bindings.map (fun (name, value) => (.text name, value)) ∧
      checkNames fields = ⟨[], bindings⟩) ∨
    (∀ bindings : Bindings Value, fields ≠ bindings.map fun (name, value) => (.text name, value)) ∧
      (checkNames fields).findings ≠ [] := by
  induction fields with
  | nil => exact .inl ⟨[], rfl, rfl⟩
  | cons field fields ih =>
    obtain ⟨key, value⟩ := field
    by_cases hkey : ∃ name, key = .text name
    · obtain ⟨name, rfl⟩ := hkey
      rcases ih with ⟨bindings, rfl, heq⟩ | ⟨hnot, hne⟩
      · refine .inl ⟨(name, value) :: bindings, rfl, ?_⟩
        rw [checkNames, heq]
      · refine .inr ⟨fun bindings heq => ?_, hne⟩
        cases bindings with
        | nil => cases heq
        | cons binding bindings => exact hnot bindings (List.cons.inj heq).2
    · have hfindings : (checkNames ((key, value) :: fields)).findings =
          ⟨"globals", .variableName key.shown⟩ :: (checkNames fields).findings := by
        cases key with
        | text name => exact absurd ⟨name, rfl⟩ hkey
        | _ => rfl
      refine .inr ⟨fun bindings heq => ?_, by rw [hfindings]; exact List.cons_ne_nil _ _⟩
      cases bindings with
      | nil => cases heq
      | cons binding bindings =>
        exact hkey ⟨binding.1, congrArg Prod.fst (List.cons.inj heq).1⟩

/-- The problems of a value for the global variables. -/
def variableProblems (entries : List (Scalar × Value)) (value : Value) : List Finding :=
  match optionValue entries value with
  | .map fields => (checkNames fields).findings
  | _ => [⟨"globals", .variablesNotAMapping⟩]

theorem checks_globals (entries : List (Scalar × Value)) :
    Checks entries "globals" (ReadsVariables entries) [] (variableProblems entries)
      (checkGlobals (effectiveOptions entries)) where
  absent h := by rw [checkGlobals, get?_of_not_given h]
  given value hgiven := by
    rw [checkGlobals, get?_of_given hgiven, variableProblems]
    split
    · rename_i hnone
      cases hnone
    · rename_i hnull
      exact .inl ⟨[], .inl ⟨optionValue_eq_scalar_iff.mp (Option.some.inj hnull), rfl⟩, rfl⟩
    · rename_i fields hfields
      have hmapping := Option.some.inj hfields
      rw [hmapping]
      rcases checkNames_eq fields with ⟨bindings, rfl, heq⟩ | ⟨hnot, hne⟩
      · exact .inl ⟨bindings, .inr (optionValue_eq_map_iff.mp hmapping), heq⟩
      · refine .inr ⟨?_, hne, rfl⟩
        rintro bindings (⟨rfl, -⟩ | hreads)
        · cases hmapping
        · rw [optionValue_eq_map_iff.mpr hreads] at hmapping
          exact hnot bindings (Value.map.inj hmapping).symm
    · rename_i other hnull hmap hother
      cases hother
      refine .inr ⟨?_, ?_⟩
      · rintro bindings (⟨rfl, -⟩ | hreads)
        · exact hnull rfl
        · exact hmap _ (optionValue_eq_map_iff.mpr hreads)
      · split
        · rename_i fields hfields
          exact (hmap fields hfields).elim
        · exact ⟨List.cons_ne_nil _ _, rfl⟩

/-! ### Hooks -/

variable {modules : List Hook.Module}

/-- Why a value stands for no hook. -/
def HookError (modules : List Hook.Module) (value : Value) (error : Hook.Error) : Prop :=
  (∀ text, ¬ ReadsText value text) ∧ error = .notAName ∨
    ∃ target, value = .scalar (.text target) ∧ Hook.find modules target = .error error

/-- The problems of a value for the hook. -/
def hookProblems (modules : List Hook.Module) (value : Value) : List Finding :=
  match value.toText?.map (Hook.find modules) with
  | none => [⟨hookOption, .hook .notAName⟩]
  | some (.error error) => [⟨hookOption, .hook error⟩]
  | some (.ok _) => []

theorem mem_hookProblems_iff {finding : Finding} :
    finding ∈ hookProblems modules value ↔
      ∃ error, HookError modules value error ∧ finding = ⟨hookOption, .hook error⟩ := by
  unfold hookProblems HookError
  cases htext : value.toText? with
  | none =>
    have hnot := toText?_eq_none_iff.mp htext
    constructor
    · intro hmem
      exact ⟨.notAName, .inl ⟨hnot, rfl⟩, List.mem_singleton.mp hmem⟩
    · rintro ⟨error, ⟨-, rfl⟩ | ⟨target, hvalue, -⟩, rfl⟩
      · exact List.mem_singleton_self _
      · exact absurd hvalue (hnot target)
  | some target =>
    obtain rfl := eq_of_toText? htext
    cases hfind : Hook.find modules target with
    | error e =>
      simp only [Option.map_some, hfind, List.mem_singleton]
      constructor
      · exact fun heq => ⟨e, .inr ⟨target, rfl, hfind⟩, heq⟩
      · rintro ⟨error, ⟨hnot, -⟩ | ⟨target', heq, hfind'⟩, rfl⟩
        · exact absurd rfl (hnot target)
        · cases heq
          cases hfind.symm.trans hfind'
          rfl
    | ok hook =>
      simp only [Option.map_some, hfind]
      refine iff_of_false List.not_mem_nil ?_
      rintro ⟨error, ⟨hnot, -⟩ | ⟨target', heq, hfind'⟩, -⟩
      · exact hnot target rfl
      · cases heq
        cases hfind.symm.trans hfind'

/-- The check of a hook that is given. -/
theorem checkHook_eq {options : Bindings Value}
    (hget : Bindings.get? hookOption options = some value) (hnull : value ≠ .scalar .null) :
    checkHook modules options =
      match value.toText?.map (Hook.find modules) with
      | none => .ok ⟨[⟨hookOption, .hook .notAName⟩], none⟩
      | some (.error error) =>
          if error.isFatal then .error error else .ok ⟨[⟨hookOption, .hook error⟩], none⟩
      | some (.ok hook) => .ok ⟨[], some hook⟩ := by
  unfold checkHook
  rw [hget]
  split
  · rename_i hnone
    cases hnone
  · rename_i hvalue
    exact absurd (Option.some.inj hvalue) hnull
  · rename_i other _ hother
    cases hother
    cases htext : value.toText? with
    | none => rfl
    | some target => cases hfind : Hook.find modules target <;> simp [hfind]

/-- A value with a root, if it is a text, stands for a hook or has problems; the check finds
them. -/
theorem checkHook_given (modules : List Hook.Module)
    (hget : Bindings.get? hookOption (effectiveOptions entries) = some (optionValue entries value))
    (hroot : ∀ target, value = .scalar (.text target) → ¬ Hook.IsRootless target) :
    ∃ checked, checkHook modules (effectiveOptions entries) = .ok checked ∧
      ((∃ hook, ReadsHook modules value hook ∧ checked = ⟨[], hook⟩) ∨
        (∀ hook, ¬ ReadsHook modules value hook) ∧ hookProblems modules value ≠ [] ∧
          checked.findings = hookProblems modules value) := by
  by_cases hnull : value = .scalar .null
  · subst hnull
    have hchecked : checkHook modules (effectiveOptions entries) = .ok ⟨[], none⟩ := by
      rw [checkHook, hget]
      rfl
    exact ⟨_, hchecked, .inl ⟨none, .inl ⟨rfl, rfl⟩, rfl⟩⟩
  · rw [checkHook_eq hget (mt optionValue_eq_scalar_iff.mp hnull), toText?_optionValue]
    cases htext : value.toText? with
    | none =>
      have hnot := toText?_eq_none_iff.mp htext
      have hproblems : hookProblems modules value = [⟨hookOption, .hook .notAName⟩] := by
        rw [hookProblems, htext]
        rfl
      refine ⟨_, rfl, .inr ⟨?_, by simp [hproblems], hproblems.symm⟩⟩
      rintro hook (⟨hvalue, -⟩ | ⟨target, found, hvalue, -⟩)
      · exact hnull hvalue
      · exact hnot target hvalue
    | some target =>
      obtain rfl := eq_of_toText? htext
      cases hfind : Hook.find modules target with
      | ok hook =>
        have hresolves := (Hook.find_eq_ok_iff (hroot target rfl)).mp hfind
        simp only [Option.map_some, hfind]
        exact ⟨_, rfl, .inl ⟨some hook, .inr ⟨target, hook, rfl, rfl, hresolves⟩, rfl⟩⟩
      | error e =>
        have hfatal : ¬ e.isFatal = true := fun hfatal =>
          hroot target rfl ((Hook.find_isFatal_iff modules target).mp ⟨e, hfind, hfatal⟩)
        have hproblems :
            hookProblems modules (.scalar (.text target)) = [⟨hookOption, .hook e⟩] := by
          rw [hookProblems, htext, Option.map_some, hfind]
        simp only [Option.map_some, hfind, if_neg hfatal]
        refine ⟨_, rfl, .inr ⟨?_, by simp [hproblems], hproblems.symm⟩⟩
        rintro hook (⟨hvalue, -⟩ | ⟨target', found, hvalue, -, hfound⟩)
        · exact hnull hvalue
        · cases hvalue
          cases hfind.symm.trans ((Hook.find_eq_ok_iff (hroot target rfl)).mpr hfound)

/-- Unless its name has no root, the hook is checked like the other options. -/
theorem exists_checks_hook (modules : List Hook.Module)
    (hroot : ∀ target, Given entries hookOption (.scalar (.text target)) →
      ¬ Hook.IsRootless target) :
    ∃ checked, checkHook modules (effectiveOptions entries) = .ok checked ∧
      Checks entries hookOption (ReadsHook modules) none (hookProblems modules) checked := by
  by_cases hgiven : ∃ value, Given entries hookOption value
  · obtain ⟨value, hgiven⟩ := hgiven
    obtain ⟨checked, hchecked, hcases⟩ := checkHook_given modules (get?_of_given hgiven)
      fun target hvalue => hroot target (hvalue ▸ hgiven)
    exact ⟨checked, hchecked, fun hnone => absurd hgiven (hnone value),
      fun other hother => hgiven.unique hother ▸ hcases⟩
  · have hnone := not_exists.mp hgiven
    refine ⟨⟨[], none⟩, ?_, fun _ => rfl, fun value hvalue => absurd hvalue (hnone value)⟩
    rw [checkHook, get?_of_not_given hnone]

/-! ### Files -/

theorem allTexts?_eq_some_iff {values : List Value} {texts : List Text} :
    allTexts? values = some texts ↔ values = texts.map Value.ofText := by
  induction values generalizing texts with
  | nil => cases texts <;> simp [allTexts?]
  | cons value values ih =>
    unfold allTexts? at ih ⊢
    rw [List.mapM_cons]
    cases htext : value.toText? with
    | none =>
      refine iff_of_false nofun fun heq => ?_
      cases texts with
      | nil => cases heq
      | cons text texts =>
        rw [(List.cons.inj heq).1] at htext
        cases htext
    | some text =>
      obtain rfl := eq_of_toText? htext
      cases hrest : values.mapM Value.toText? with
      | none =>
        refine iff_of_false nofun fun heq => ?_
        cases texts with
        | nil => cases heq
        | cons other texts =>
          rw [ih.mpr (List.cons.inj heq).2] at hrest
          cases hrest
      | some rest =>
        rw [ih.mp hrest]
        cases texts with
        | nil => exact iff_of_false nofun nofun
        | cons other texts =>
          have hinj : rest.map Value.ofText = texts.map Value.ofText ↔ rest = texts :=
            (List.map_injective_iff.mpr fun _ _ heq => by cases heq; rfl).eq_iff
          simp [Value.ofText, hinj]

theorem sources?_eq_some_iff {sources : List Text} :
    sources? fields = some sources ↔ ReadsSources (Value.getEntry? "src" fields) sources := by
  unfold sources?
  constructor
  · intro h
    split at h
    · rename_i pattern hsrc
      cases h
      rw [hsrc]
      exact .one pattern
    · rename_i value values hsrc
      have htexts := allTexts?_eq_some_iff.mp h
      cases sources with
      | nil => cases htexts
      | cons pattern patterns =>
        rw [hsrc, htexts]
        exact .several pattern patterns
    · cases h
  · generalize Value.getEntry? "src" fields = src
    rintro (pattern | ⟨pattern, patterns⟩)
    · rfl
    · exact allTexts?_eq_some_iff.mpr rfl

theorem cwd?_eq_some_iff {cwd : Option Text} :
    cwd? fields = some cwd ↔ ReadsCwd (Value.getEntry? "cwd" fields) cwd := by
  unfold cwd?
  constructor
  · intro h
    split at h
    · rename_i hcwd
      cases h
      rw [hcwd]
      exact .absent
    · rename_i hcwd
      cases h
      rw [hcwd]
      exact .null
    · rename_i directory hcwd
      rw [hcwd]
      cases directory with
      | nil =>
        cases h
        exact .empty
      | cons c directory =>
        cases h
        exact .directory _ (List.cons_ne_nil _ _)
    · cases h
  · generalize Value.getEntry? "cwd" fields = value
    rintro (_ | _ | _ | ⟨directory, hne⟩)
    · rfl
    · rfl
    · rfl
    · simp [hne]

/-- What is wrong with an entry; what is wrong first hides the rest. -/
inductive Misfit (entries : List (Scalar × Value)) (item : Value) : Problem → Prop where
  /-- It is no mapping. -/
  | entry (h : ∀ fields, ¬ IsMapping entries item fields) : Misfit entries item .entryNotAMapping
  /-- It has no sources. -/
  | sources {fields : List (Scalar × Value)} (h : IsMapping entries item fields)
      (hsources : ∀ sources, ¬ ReadsSources (Value.getEntry? "src" fields) sources) :
      Misfit entries item .badSources
  /-- It has sources, but no destination. -/
  | dest {fields : List (Scalar × Value)} {sources : List Text} (h : IsMapping entries item fields)
      (hsources : ReadsSources (Value.getEntry? "src" fields) sources)
      (hdest : ∀ dest, ¬ ReadsDest (Value.getEntry? "dest" fields) dest) :
      Misfit entries item .badDest
  /-- It has sources and a destination, but its directory is none. -/
  | cwd {fields : List (Scalar × Value)} {sources : List Text} {dest : Text}
      (h : IsMapping entries item fields)
      (hsources : ReadsSources (Value.getEntry? "src" fields) sources)
      (hdest : ReadsDest (Value.getEntry? "dest" fields) dest)
      (hcwd : ∀ cwd, ¬ ReadsCwd (Value.getEntry? "cwd" fields) cwd) : Misfit entries item .badCwd

theorem unfolded_eq_map_iff {item : Value} :
    unfolded entries item = .map fields ↔ IsMapping entries item fields := by
  constructor
  · intro h
    cases item with
    | map own =>
      cases h
      exact .own fields
    | outerMap =>
      cases h
      exact .outer
    | _ => cases h
  · rintro (_ | _) <;> rfl

theorem IsMapping.unique {item : Value} {fields' : List (Scalar × Value)}
    (h : IsMapping entries item fields) (h' : IsMapping entries item fields') : fields = fields' :=
  Value.map.inj ((unfolded_eq_map_iff.mpr h).symm.trans (unfolded_eq_map_iff.mpr h'))

/-- An entry is read just if it is a mapping with sources, a destination and perhaps a directory. -/
theorem checkMapping_eq_ok_iff {item : Value} {mapping : FileMapping} :
    checkMapping (unfolded entries item) = .ok mapping ↔ ReadsMapping entries item mapping := by
  constructor
  · intro h
    unfold checkMapping at h
    split at h
    · rename_i fields hfields
      split at h
      · cases h
      · rename_i sources hsources
        split at h
        · rename_i c dest hdest
          split at h
          · cases h
          · rename_i cwd hcwd
            cases h
            exact ⟨fields, unfolded_eq_map_iff.mp hfields, sources?_eq_some_iff.mp hsources,
              ⟨hdest, List.cons_ne_nil _ _⟩, cwd?_eq_some_iff.mp hcwd⟩
        · cases h
    · cases h
  · rintro ⟨fields, hmapping, hsources, ⟨hdest, hne⟩, hcwd⟩
    obtain ⟨sources, dest, cwd⟩ := mapping
    obtain ⟨c, dest, rfl⟩ := List.exists_cons_of_ne_nil hne
    rw [unfolded_eq_map_iff.mpr hmapping]
    simp only [checkMapping, sources?_eq_some_iff.mpr hsources, hdest, cwd?_eq_some_iff.mpr hcwd]

theorem sources?_eq_none (h : ∀ sources, ¬ ReadsSources (Value.getEntry? "src" fields) sources) :
    sources? fields = none := by
  rw [Option.eq_none_iff_forall_not_mem]
  exact fun sources hsources => h sources (sources?_eq_some_iff.mp hsources)

theorem cwd?_eq_none (h : ∀ cwd, ¬ ReadsCwd (Value.getEntry? "cwd" fields) cwd) :
    cwd? fields = none := by
  rw [Option.eq_none_iff_forall_not_mem]
  exact fun cwd hcwd => h cwd (cwd?_eq_some_iff.mp hcwd)

theorem Misfit.check {item : Value} {problem : Problem} (h : Misfit entries item problem) :
    checkMapping (unfolded entries item) = .error problem := by
  cases h with
  | entry hnot =>
    unfold checkMapping
    split
    · rename_i fields hfields
      exact absurd (unfolded_eq_map_iff.mp hfields) (hnot fields)
    · rfl
  | sources hmapping hsources =>
    rw [unfolded_eq_map_iff.mpr hmapping]
    simp only [checkMapping, sources?_eq_none hsources]
  | dest hmapping hsources hdest =>
    rw [unfolded_eq_map_iff.mpr hmapping]
    simp only [checkMapping, sources?_eq_some_iff.mpr hsources]
    split
    · rename_i c dest hreads
      exact absurd ⟨hreads, List.cons_ne_nil _ _⟩ (hdest (c :: dest))
    · rfl
  | cwd hmapping hsources hdest hcwd =>
    obtain ⟨hdest, hne⟩ := hdest
    obtain ⟨c, dest, rfl⟩ := List.exists_cons_of_ne_nil hne
    rw [unfolded_eq_map_iff.mpr hmapping]
    simp only [checkMapping, sources?_eq_some_iff.mpr hsources, hdest, cwd?_eq_none hcwd]

/-- An entry can be read, or something is wrong with it. -/
theorem reads_or_misfit (entries : List (Scalar × Value)) (item : Value) :
    (∃ mapping, ReadsMapping entries item mapping) ∨ ∃ problem, Misfit entries item problem := by
  by_cases hmapping : ∃ fields, IsMapping entries item fields
  · obtain ⟨fields, hmapping⟩ := hmapping
    by_cases hsources : ∃ sources, ReadsSources (Value.getEntry? "src" fields) sources
    · obtain ⟨sources, hsources⟩ := hsources
      by_cases hdest : ∃ dest, ReadsDest (Value.getEntry? "dest" fields) dest
      · obtain ⟨dest, hdest⟩ := hdest
        by_cases hcwd : ∃ cwd, ReadsCwd (Value.getEntry? "cwd" fields) cwd
        · obtain ⟨cwd, hcwd⟩ := hcwd
          exact .inl ⟨⟨sources, dest, cwd⟩, fields, hmapping, hsources, hdest, hcwd⟩
        · exact .inr ⟨_, .cwd hmapping hsources hdest (not_exists.mp hcwd)⟩
      · exact .inr ⟨_, .dest hmapping hsources (not_exists.mp hdest)⟩
    · exact .inr ⟨_, .sources hmapping (not_exists.mp hsources)⟩
  · exact .inr ⟨_, .entry (not_exists.mp hmapping)⟩

/-- An entry is refused for what is wrong with it first. -/
theorem checkMapping_eq_error_iff {item : Value} {problem : Problem} :
    checkMapping (unfolded entries item) = .error problem ↔ Misfit entries item problem := by
  refine ⟨fun h => ?_, Misfit.check⟩
  rcases reads_or_misfit entries item with ⟨mapping, hreads⟩ | ⟨other, hmisfit⟩
  · rw [checkMapping_eq_ok_iff.mpr hreads] at h
    cases h
  · have hother := hmisfit.check
    rw [h] at hother
    cases hother
    exact hmisfit

/-- The entries are read just if each of them is. -/
theorem checkMappings_eq (entries : List (Scalar × Value)) (items : List Value) (index : Nat) :
    (∃ mappings, List.Forall₂ (ReadsMapping entries) items mappings ∧
      checkMappings index (items.map (unfolded entries)) = ⟨[], mappings⟩) ∨
    (∀ mappings, ¬ List.Forall₂ (ReadsMapping entries) items mappings) ∧
      (checkMappings index (items.map (unfolded entries))).findings ≠ [] := by
  induction items generalizing index with
  | nil => exact .inl ⟨[], .nil, rfl⟩
  | cons item items ih =>
    rw [List.map_cons, checkMappings]
    cases hitem : checkMapping (unfolded entries item) with
    | error problem =>
      refine .inr ⟨fun mappings hreads => ?_, List.cons_ne_nil _ _⟩
      cases hreads with
      | cons hfirst _ =>
        cases hitem.symm.trans (checkMapping_eq_ok_iff.mpr hfirst)
    | ok mapping =>
      rcases ih (index + 1) with ⟨mappings, hreads, heq⟩ | ⟨hnot, hne⟩
      · refine .inl ⟨mapping :: mappings, .cons (checkMapping_eq_ok_iff.mp hitem) hreads, ?_⟩
        simp only [heq]
      · refine .inr ⟨fun mappings hreads => ?_, hne⟩
        cases hreads with
        | cons _ hrest => exact hnot _ hrest

/-- The problems of a value for the files. -/
def fileProblems (entries : List (Scalar × Value)) (value : Value) : List Finding :=
  match value with
  | .list items => (checkMappings 0 (items.map (unfolded entries))).findings
  | _ => [⟨"files", .filesNotAList⟩]

theorem checks_files (entries : List (Scalar × Value)) :
    Checks entries "files" (ReadsFiles entries) [] (fileProblems entries)
      (checkFiles (effectiveOptions entries)) where
  absent h := by rw [checkFiles, get?_of_not_given h]
  given value hgiven := by
    rw [checkFiles, get?_of_given hgiven]
    by_cases hnull : value = .scalar .null
    · subst hnull
      exact .inl ⟨[], .inl ⟨rfl, rfl⟩, rfl⟩
    · by_cases hlist : ∃ items, value = .list items
      · obtain ⟨items, rfl⟩ := hlist
        rcases checkMappings_eq entries items 0 with ⟨mappings, hreads, heq⟩ | ⟨hnot, hne⟩
        · exact .inl ⟨mappings, .inr ⟨items, rfl, hreads⟩, heq⟩
        · refine .inr ⟨?_, hne, rfl⟩
          rintro files (⟨hvalue, -⟩ | ⟨items', hvalue, hreads⟩)
          · exact hnull hvalue
          · cases hvalue
            exact hnot files hreads
      · refine .inr ⟨?_, ?_⟩
        · rintro files (⟨hvalue, -⟩ | ⟨items, hvalue, -⟩)
          · exact hnull hvalue
          · exact hlist ⟨items, hvalue⟩
        · cases value with
          | list items => exact absurd ⟨items, rfl⟩ hlist
          | scalar scalar =>
            cases scalar with
            | null => exact absurd rfl hnull
            | _ => exact ⟨List.cons_ne_nil _ _, rfl⟩
          | _ => exact ⟨List.cons_ne_nil _ _, rfl⟩

end Config

end Splice
