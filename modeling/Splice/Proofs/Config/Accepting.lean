import Splice.Proofs.Config.Given

/-!
# Valid options and broken rules

A loader accepts exactly the valid options and returns what they say. All others it refuses with one
record for each rule that is broken, in the order of the rules; what it found before plays no part.

* `Config.Valid`, `Config.Describes` — valid options, and the configuration that they describe;
* `Config.Rule`, `Config.Broken` — the rules in their order, and the record of one that is broken;
* `Config.Accounts` — some rules and the records of those that are broken; and
* `Config.readValue_accepts` — what a loader accepts, returns and reports.
-/

namespace Splice.Config

/-- The given options are valid. -/
structure Valid (modules : List Hook.Module) (entries : List (Scalar × Value)) : Prop where
  texts : ∀ name ∈ textOptions, ∀ value, Given entries name value → ∃ text, ReadsText value text
  opener : ¬ Given entries "prefix" (.scalar (.text []))
  flags : ∀ name ∈ boolOptions, ∀ value, Given entries name value → ∃ flag, ReadsFlag value flag
  globals : ∀ value, Given entries "globals" value →
      ∃ bindings, ReadsVariables entries value bindings
  depth : ∀ value, Given entries "max_depth" value → ∃ depth, ReadsDepth value depth
  hook : ∀ value, Given entries hookOption value → ∃ hook, ReadsHook modules value hook
  files : ∀ value, Given entries "files" value → ∃ files, ReadsFiles entries value files

/-- The configuration is what the options say, with defaults for those that are not given. -/
structure Describes (modules : List Hook.Module) (entries : List (Scalar × Value))
    (config : Config) :
    Prop where
  opener : OptionIs entries "prefix" ReadsText "@@" config.delimiters.opener
  closer : OptionIs entries "suffix" ReadsText "" config.delimiters.closer
  includesDir : OptionIs entries "includes_dir" ReadsText "" config.includesDir
  docroot : OptionIs entries "docroot" ReadsText "." config.docroot
  encoding : OptionIs entries "encoding" ReadsText "utf-8" config.encoding
  useMustache : OptionIs entries "use_mustache" ReadsFlag true config.useMustache
  alwaysUnescaped : OptionIs entries "always_unescaped" ReadsFlag false config.alwaysUnescaped
  expandValues : OptionIs entries "expand_values" ReadsFlag true config.expandValues
  globals : OptionIs entries "globals" (ReadsVariables entries) [] config.globals
  maxDepth : OptionIs entries "max_depth" ReadsDepth 100 config.maxDepth
  hook : OptionIs entries hookOption (ReadsHook modules) none config.hook
  files : OptionIs entries "files" (ReadsFiles entries) [] config.files

/-- The rules for options. -/
inductive Rule where
  /-- A text option is a text. -/
  | text (number : Nat)
  /-- The opener is not empty. -/
  | opener
  /-- A truth value is one. -/
  | flag (number : Nat)
  /-- The global variables are nothing or a mapping. -/
  | globals
  /-- The name of a global variable is a text. -/
  | variableName (number : Nat)
  /-- The bound on the depth is a positive integer. -/
  | depth
  /-- The hook is nothing or the name of one. -/
  | hook
  /-- The files are nothing or a list. -/
  | files
  /-- An entry of the files has all its parts. -/
  | entry (number : Nat)
deriving DecidableEq, Repr

namespace Rule

/-- The rules are looked at in groups. -/
def group : Rule → Nat
  | text _ => 0
  | opener => 1
  | flag _ => 2
  | globals | variableName _ => 3
  | depth => 4
  | hook => 5
  | files | entry _ => 6

/-- The rules of a group are looked at one after the other. -/
def number : Rule → Nat
  | text number | flag number | variableName number | entry number => number
  | _ => 0

/-- The order of the rules. -/
def Before (rule other : Rule) : Prop :=
  rule.group < other.group ∨ rule.group = other.group ∧ rule.number < other.number

instance (rule other : Rule) : Decidable (Before rule other) :=
  inferInstanceAs (Decidable (_ ∨ _))

end Rule

/-- The rule is broken, and this is the record of it. -/
inductive Broken (modules : List Hook.Module) (entries : List (Scalar × Value)) :
    Rule → Finding → Prop where
  /-- A text option is no text. -/
  | text {number : Nat} {name : Text} {value : Value} (hname : textOptions[number]? = some name)
      (hgiven : Given entries name value) (hnot : ∀ text, ¬ ReadsText value text) :
      Broken modules entries (.text number) ⟨name, .notAText value.typeName⟩
  /-- The opener is empty. -/
  | opener (hgiven : Given entries "prefix" (.scalar (.text []))) :
      Broken modules entries .opener ⟨"prefix", .isEmpty⟩
  /-- A truth value is none. -/
  | flag {number : Nat} {name : Text} {value : Value} (hname : boolOptions[number]? = some name)
      (hgiven : Given entries name value) (hnot : ∀ flag, ¬ ReadsFlag value flag) :
      Broken modules entries (.flag number) ⟨name, .notABool value.typeName⟩
  /-- The global variables are no mapping, but something. -/
  | globals {value : Value} (hgiven : Given entries "globals" value) (hnull : value ≠ .scalar .null)
      (hnot : ∀ fields, ¬ IsMapping entries value fields) :
      Broken modules entries .globals ⟨"globals", .variablesNotAMapping⟩
  /-- The name of a global variable is no text. -/
  | variableName {number : Nat} {value contents : Value} {fields : List (Scalar × Value)}
      {key : Scalar} (hgiven : Given entries "globals" value)
      (hmapping : IsMapping entries value fields) (hfield : fields[number]? = some (key, contents))
      (hnot : ∀ name, key ≠ .text name) :
      Broken modules entries (.variableName number) ⟨"globals", .variableName key.shown⟩
  /-- The bound on the depth is no positive integer. -/
  | depth {value : Value} (hgiven : Given entries "max_depth" value)
      (hnot : ∀ depth, ¬ ReadsDepth value depth) :
      Broken modules entries .depth ⟨"max_depth", .notPositive⟩
  /-- The hook is something, but none. -/
  | hook {value : Value} {error : Hook.Error} (hgiven : Given entries hookOption value)
      (hnot : ∀ hook, ¬ ReadsHook modules value hook) (herror : HookError modules value error) :
      Broken modules entries .hook ⟨hookOption, .hook error⟩
  /-- The files are no list, but something. -/
  | files {value : Value} (hgiven : Given entries "files" value) (hnull : value ≠ .scalar .null)
      (hnot : ∀ items, value ≠ .list items) :
      Broken modules entries .files ⟨"files", .filesNotAList⟩
  /-- Something is wrong with an entry of the files. -/
  | entry {number : Nat} {items : List Value} {item : Value} {problem : Problem}
      (hgiven : Given entries "files" (.list items)) (hitem : items[number]? = some item)
      (hmisfit : Misfit entries item problem) :
      Broken modules entries (.entry number) ⟨"files[" ++ Text.ofNat number ++ "]", problem⟩

/-- The findings are those of the rules that are broken among these, in their order. -/
def Accounts (modules : List Hook.Module) (entries : List (Scalar × Value)) (rules : Rule → Prop)
    (findings : List Finding) : Prop :=
  ∃ broken : List (Rule × Finding), findings = broken.map Prod.snd ∧
    broken.Pairwise (fun one other => one.1.Before other.1) ∧
      ∀ rule finding, (rule, finding) ∈ broken ↔ rules rule ∧ Broken modules entries rule finding

variable {modules : List Hook.Module} {entries fields : List (Scalar × Value)}
  {findings : List Finding} {rules : Rule → Prop} {group : Nat}

theorem pairwise_of_length_le_one {α : Type} {R : α → α → Prop} {l : List α} (h : l.length ≤ 1) :
    l.Pairwise R := by
  match l, h with
  | [], _ => exact .nil
  | [a], _ => exact List.pairwise_singleton R a

namespace Accounts

/-- One more group of rules. -/
theorem append {more : List Finding}
    (h : Accounts modules entries (fun rule => rule.group < group) findings)
    (h' : Accounts modules entries (fun rule => rule.group = group) more) :
    Accounts modules entries (fun rule => rule.group < group + 1) (findings ++ more) := by
  obtain ⟨broken, rfl, hordered, hmem⟩ := h
  obtain ⟨broken', rfl, hordered', hmem'⟩ := h'
  refine ⟨broken ++ broken', List.map_append.symm, ?_, fun rule finding => ?_⟩
  · refine List.pairwise_append.mpr ⟨hordered, hordered', fun one hone other hother => .inl ?_⟩
    have hless := ((hmem one.1 one.2).mp hone).1
    have heq := ((hmem' other.1 other.2).mp hother).1
    omega
  · rw [List.mem_append, hmem, hmem', ← or_and_right]
    exact and_congr_left fun _ => by omega

/-- Rules of which at most one is broken. -/
theorem single (rule : Rule) (hlength : findings.length ≤ 1)
    (h : ∀ other finding, (rules other ∧ Broken modules entries other finding) ↔
      other = rule ∧ finding ∈ findings) : Accounts modules entries rules findings := by
  refine ⟨findings.map fun finding => (rule, finding), by simp [Function.comp_def], ?_, ?_⟩
  · exact pairwise_of_length_le_one (by simpa using hlength)
  · intro other finding
    rw [h]
    simp [eq_comm, and_comm]

/-- A rule on the whole value of an option. -/
theorem refused {α : Type} {name : Text} {Reads : Value → α → Prop} {default : α}
    {problems : Value → List Finding} {checked : Checked α} (rule : Rule) (finding : Finding)
    (hchecks : Checks entries name Reads default problems checked)
    (hproblems : ∀ value, Given entries name value → problems value = [finding])
    (h : ∀ other found, (rules other ∧ Broken modules entries other found) ↔
      other = rule ∧ found = finding ∧ ∃ value, Given entries name value ∧ ∀ a, ¬ Reads value a) :
    Accounts modules entries rules checked.findings := by
  have hlength : checked.findings.length ≤ 1 := hchecks.length_findings_le fun value hgiven => by
    rw [hproblems value hgiven]
    exact Nat.le_refl 1
  refine single rule hlength fun other found => ?_
  rw [h, hchecks.mem_findings_iff]
  refine and_congr_right fun _ => ?_
  constructor
  · rintro ⟨rfl, value, hgiven, hnot⟩
    exact ⟨value, hgiven, hnot, by simp [hproblems value hgiven]⟩
  · rintro ⟨value, hgiven, hnot, hmem⟩
    rw [hproblems value hgiven] at hmem
    exact ⟨List.mem_singleton.mp hmem, value, hgiven, hnot⟩

/-- A rule for each item of a list. -/
theorem indexed {α : Type} {items : List α} (rule : Nat → Rule) (problems : Nat → α → List Finding)
    (hbefore : ∀ number other, number < other → (rule number).Before (rule other))
    (hlength : ∀ number item, (problems number item).length ≤ 1)
    (h : ∀ other finding, (rules other ∧ Broken modules entries other finding) ↔
      ∃ number item, items[number]? = some item ∧ other = rule number ∧
        finding ∈ problems number item) :
    Accounts modules entries rules
      (items.zipIdx.flatMap fun (item, number) => problems number item) := by
  refine ⟨items.zipIdx.flatMap fun (item, number) =>
    (problems number item).map fun finding => (rule number, finding), ?_, ?_, ?_⟩
  · simp [List.map_flatMap, Function.comp_def]
  · refine List.pairwise_flatMap.mpr ⟨fun (item, number) _ => ?_, ?_⟩
    · exact pairwise_of_length_le_one (by simpa using hlength number item)
    · have hnumbers : (items.zipIdx.map Prod.snd).Pairwise (· < ·) := by
        rw [List.zipIdx_map_snd]
        exact List.pairwise_lt_range'
      -- Findings of different items are ordered as the items are.
      refine (List.pairwise_map.mp hnumbers).imp fun {one other} hlt => ?_
      intro first hfirst second hsecond
      obtain ⟨_, -, rfl⟩ := List.mem_map.mp hfirst
      obtain ⟨_, -, rfl⟩ := List.mem_map.mp hsecond
      exact hbefore _ _ hlt
  · intro other finding
    rw [h]
    constructor
    · intro hmem
      obtain ⟨⟨item, number⟩, hitem, hmem⟩ := List.mem_flatMap.mp hmem
      obtain ⟨finding', hfinding, heq⟩ := List.mem_map.mp hmem
      cases heq
      exact ⟨number, item, List.mem_zipIdx_iff_getElem?.mp hitem, rfl, hfinding⟩
    · rintro ⟨number, item, hitem, rfl, hfinding⟩
      exact List.mem_flatMap.mpr ⟨(item, number), List.mem_zipIdx_iff_getElem?.mpr hitem,
        List.mem_map.mpr ⟨finding, hfinding, rfl⟩⟩

end Accounts

/-! ### The groups of rules -/

theorem findings_checkText (options : Bindings Value) (name default : Text) :
    (checkText options name default).findings = (checkText options name []).findings := by
  unfold checkText
  split
  · rfl
  · split <;> rfl

theorem findings_checkBool (options : Bindings Value) (name : Text) (default : Bool) :
    (checkBool options name default).findings = (checkBool options name false).findings := by
  unfold checkBool
  split <;> rfl

theorem accounts_texts (modules : List Hook.Module) (entries : List (Scalar × Value)) :
    Accounts modules entries (fun rule => rule.group = 0)
      (textOptions.zipIdx.flatMap fun (name, _) =>
        (checkText (effectiveOptions entries) name []).findings) := by
  refine Accounts.indexed .text _ (fun _ _ hlt => .inr ⟨rfl, hlt⟩)
    (fun _ name => (checks_text entries name []).length_findings_le fun _ _ => Nat.le_refl 1)
    fun other finding => ?_
  simp only [(checks_text entries _ []).mem_findings_iff, List.mem_singleton]
  constructor
  · rintro ⟨hgroup, hbroken⟩
    cases hbroken with
    | text hname hgiven hnot => exact ⟨_, _, hname, rfl, _, hgiven, hnot, rfl⟩
    | _ => cases hgroup
  · rintro ⟨number, name, hname, rfl, value, hgiven, hnot, rfl⟩
    exact ⟨rfl, .text hname hgiven hnot⟩

theorem mem_checkOpenerNotEmpty_iff {finding : Finding} :
    finding ∈ checkOpenerNotEmpty (effectiveOptions entries) ↔
      Given entries "prefix" (.scalar (.text [])) ∧ finding = ⟨"prefix", .isEmpty⟩ := by
  have hempty : (Bindings.get? "prefix" (effectiveOptions entries)).bind Value.toText? = some [] ↔
      Given entries "prefix" (.scalar (.text [])) := by
    constructor
    · intro h
      obtain ⟨value, hget, htext⟩ := Option.bind_eq_some_iff.mp h
      obtain ⟨given, hgiven, rfl⟩ := get?_effectiveOptions_iff.mp hget
      rw [toText?_optionValue] at htext
      exact eq_of_toText? htext ▸ hgiven
    · intro hgiven
      rw [get?_of_given hgiven]
      rfl
  rw [← hempty]
  unfold checkOpenerNotEmpty
  split
  · rename_i h
    rw [List.mem_singleton]
    exact ⟨fun heq => ⟨h, heq⟩, And.right⟩
  · rename_i hnot
    exact iff_of_false List.not_mem_nil fun ⟨h, _⟩ => hnot h

theorem checkOpenerNotEmpty_eq_nil_iff :
    checkOpenerNotEmpty (effectiveOptions entries) = [] ↔
      ¬ Given entries "prefix" (.scalar (.text [])) := by
  simp [List.eq_nil_iff_forall_not_mem, mem_checkOpenerNotEmpty_iff]

theorem accounts_opener (modules : List Hook.Module) (entries : List (Scalar × Value)) :
    Accounts modules entries (fun rule => rule.group = 1)
      (checkOpenerNotEmpty (effectiveOptions entries)) := by
  refine Accounts.single .opener ?_ fun other finding => ?_
  · unfold checkOpenerNotEmpty
    split <;> simp
  · rw [mem_checkOpenerNotEmpty_iff]
    constructor
    · rintro ⟨hgroup, hbroken⟩
      cases hbroken with
      | opener hgiven => exact ⟨rfl, hgiven, rfl⟩
      | _ => cases hgroup
    · rintro ⟨rfl, hgiven, rfl⟩
      exact ⟨rfl, .opener hgiven⟩

theorem accounts_flags (modules : List Hook.Module) (entries : List (Scalar × Value)) :
    Accounts modules entries (fun rule => rule.group = 2)
      (boolOptions.zipIdx.flatMap fun (name, _) =>
        (checkBool (effectiveOptions entries) name false).findings) := by
  refine Accounts.indexed .flag _ (fun _ _ hlt => .inr ⟨rfl, hlt⟩)
    (fun _ name => (checks_flag entries name false).length_findings_le fun _ _ => Nat.le_refl 1)
    fun other finding => ?_
  simp only [(checks_flag entries _ false).mem_findings_iff, List.mem_singleton]
  constructor
  · rintro ⟨hgroup, hbroken⟩
    cases hbroken with
    | flag hname hgiven hnot => exact ⟨_, _, hname, rfl, _, hgiven, hnot, rfl⟩
    | _ => cases hgroup
  · rintro ⟨number, name, hname, rfl, value, hgiven, hnot, rfl⟩
    exact ⟨rfl, .flag hname hgiven hnot⟩

theorem accounts_depth (modules : List Hook.Module) (entries : List (Scalar × Value)) :
    Accounts modules entries (fun rule => rule.group = 4)
      (checkDepth (effectiveOptions entries)).findings := by
  refine Accounts.refused .depth ⟨"max_depth", .notPositive⟩ (checks_depth entries) (fun _ _ => rfl)
    fun other finding => ?_
  constructor
  · rintro ⟨hgroup, hbroken⟩
    cases hbroken with
    | depth hgiven hnot => exact ⟨rfl, rfl, _, hgiven, hnot⟩
    | _ => cases hgroup
  · rintro ⟨rfl, rfl, value, hgiven, hnot⟩
    exact ⟨rfl, .depth hgiven hnot⟩

theorem accounts_hook {hook : Checked (Option Hook)}
    (hchecks : Checks entries hookOption (ReadsHook modules) none (hookProblems modules) hook) :
    Accounts modules entries (fun rule => rule.group = 5) hook.findings := by
  have hlength (value : Value) : (hookProblems modules value).length ≤ 1 := by
    unfold hookProblems
    split <;> simp
  refine Accounts.single .hook (hchecks.length_findings_le fun value _ => hlength value)
    fun other finding => ?_
  rw [hchecks.mem_findings_iff]
  simp only [mem_hookProblems_iff]
  constructor
  · rintro ⟨hgroup, hbroken⟩
    cases hbroken with
    | hook hgiven hnot herror => exact ⟨rfl, _, hgiven, hnot, _, herror, rfl⟩
    | _ => cases hgroup
  · rintro ⟨rfl, value, hgiven, hnot, error, herror, rfl⟩
    exact ⟨rfl, .hook hgiven hnot herror⟩

/-- The names of variables that are no texts. -/
theorem findings_checkNames (fields : List (Scalar × Value)) (start : Nat) :
    (checkNames fields).findings = (fields.zipIdx start).flatMap fun (field, _) =>
      (checkNames [field]).findings := by
  induction fields generalizing start with
  | nil => rfl
  | cons field fields ih =>
    obtain ⟨key, value⟩ := field
    rw [List.zipIdx_cons, List.flatMap_cons, ← ih (start + 1)]
    cases key <;> rfl

theorem mem_findings_name_iff {field : Scalar × Value} {finding : Finding} :
    finding ∈ (checkNames [field]).findings ↔
      (∀ name, field.1 ≠ .text name) ∧ finding = ⟨"globals", .variableName field.1.shown⟩ := by
  obtain ⟨key, value⟩ := field
  cases key <;> simp [checkNames]

/-- There is a rule for each name of a mapping. -/
theorem accounts_names {value : Value} (hgiven : Given entries "globals" value)
    (hmapping : IsMapping entries value fields) :
    Accounts modules entries (fun rule => rule.group = 3)
      (checkGlobals (effectiveOptions entries)).findings := by
  have hfindings :
      (checkGlobals (effectiveOptions entries)).findings = (checkNames fields).findings := by
    rw [checkGlobals, get?_of_given hgiven, optionValue_eq_map_iff.mpr hmapping]
  rw [hfindings, findings_checkNames fields 0]
  refine Accounts.indexed .variableName (fun _ field => (checkNames [field]).findings)
    (fun _ _ hlt => .inr ⟨rfl, hlt⟩) (fun _ field => ?_) fun other finding => ?_
  · obtain ⟨key, value⟩ := field
    cases key <;> simp [checkNames]
  · simp only [mem_findings_name_iff]
    constructor
    · rintro ⟨hgroup, hbroken⟩
      cases hbroken with
      | globals hother hnull hnot => exact absurd hmapping (hgiven.unique hother ▸ hnot fields)
      | variableName hother hfields hfield hnot =>
        obtain rfl := hgiven.unique hother
        obtain rfl := hmapping.unique hfields
        exact ⟨_, _, hfield, rfl, hnot, rfl⟩
      | _ => cases hgroup
    · rintro ⟨number, ⟨key, contents⟩, hfield, rfl, hnot, rfl⟩
      exact ⟨rfl, .variableName hgiven hmapping hfield hnot⟩

/-- What is no mapping has to be nothing. -/
theorem accounts_no_names
    (hnot : ∀ value fields, Given entries "globals" value → ¬ IsMapping entries value fields) :
    Accounts modules entries (fun rule => rule.group = 3)
      (checkGlobals (effectiveOptions entries)).findings := by
  have hproblems (value : Value) (hgiven : Given entries "globals" value) :
      variableProblems entries value = [⟨"globals", .variablesNotAMapping⟩] := by
    unfold variableProblems
    split
    · rename_i fields hfields
      exact absurd (optionValue_eq_map_iff.mp hfields) (hnot value fields hgiven)
    · rfl
  refine Accounts.refused .globals _ (checks_globals entries) hproblems fun other finding => ?_
  constructor
  · rintro ⟨hgroup, hbroken⟩
    cases hbroken with
    | globals hgiven hnull hnone =>
      refine ⟨rfl, rfl, _, hgiven, ?_⟩
      rintro bindings (⟨hvalue, -⟩ | hmapping)
      · exact hnull hvalue
      · exact hnone _ hmapping
    | variableName hgiven hfields => exact absurd hfields (hnot _ _ hgiven)
    | _ => cases hgroup
  · rintro ⟨rfl, rfl, value, hgiven, hnone⟩
    have hnull : value ≠ .scalar .null := fun hvalue => hnone [] (.inl ⟨hvalue, rfl⟩)
    exact ⟨rfl, .globals hgiven hnull fun fields => hnot value fields hgiven⟩

theorem accounts_globals (modules : List Hook.Module) (entries : List (Scalar × Value)) :
    Accounts modules entries (fun rule => rule.group = 3)
      (checkGlobals (effectiveOptions entries)).findings := by
  by_cases hmapping : ∃ value fields, Given entries "globals" value ∧ IsMapping entries value fields
  · obtain ⟨value, fields, hgiven, hmapping⟩ := hmapping
    exact accounts_names hgiven hmapping
  · exact accounts_no_names fun value fields hgiven hfields =>
      hmapping ⟨value, fields, hgiven, hfields⟩

/-- The entries that are no mappings of files. -/
theorem findings_checkMappings (items : List Value) (index : Nat) :
    (checkMappings index (items.map (unfolded entries))).findings =
      (items.zipIdx index).flatMap fun (item, number) =>
        (checkMappings number [unfolded entries item]).findings := by
  induction items generalizing index with
  | nil => rfl
  | cons item items ih =>
    rw [List.map_cons, List.zipIdx_cons, List.flatMap_cons, ← ih (index + 1)]
    cases hitem : checkMapping (unfolded entries item) <;> simp [checkMappings, hitem]

theorem mem_findings_mapping_iff {item : Value} {number : Nat} {finding : Finding} :
    finding ∈ (checkMappings number [unfolded entries item]).findings ↔
      ∃ problem, Misfit entries item problem ∧
        finding = ⟨"files[" ++ Text.ofNat number ++ "]", problem⟩ := by
  simp only [checkMappings, ← checkMapping_eq_error_iff]
  cases checkMapping (unfolded entries item) <;> simp

/-- There is a rule for each entry of a list. -/
theorem accounts_entries {items : List Value} (hgiven : Given entries "files" (.list items)) :
    Accounts modules entries (fun rule => rule.group = 6)
      (checkFiles (effectiveOptions entries)).findings := by
  have hfindings : (checkFiles (effectiveOptions entries)).findings =
      items.zipIdx.flatMap fun (item, number) =>
        (checkMappings number [unfolded entries item]).findings := by
    rw [checkFiles, get?_of_given hgiven]
    exact findings_checkMappings items 0
  rw [hfindings]
  -- Each entry is checked by itself, and has one finding at most.
  refine Accounts.indexed .entry (fun number item =>
    (checkMappings number [unfolded entries item]).findings) (fun _ _ hlt => .inr ⟨rfl, hlt⟩)
    (fun number item => ?_) fun other finding => ?_
  · rw [checkMappings]
    cases checkMapping (unfolded entries item) <;> simp [checkMappings]
  · simp only [mem_findings_mapping_iff]
    constructor
    · rintro ⟨hgroup, hbroken⟩
      cases hbroken with
      | files hother hnull hnot => exact absurd rfl (hgiven.unique hother ▸ hnot items)
      | entry hother hitem hmisfit =>
        cases hgiven.unique hother
        exact ⟨_, _, hitem, rfl, _, hmisfit, rfl⟩
      | _ => cases hgroup
    · rintro ⟨number, item, hitem, rfl, problem, hmisfit, rfl⟩
      exact ⟨rfl, .entry hgiven hitem hmisfit⟩

/-- What is no list has to be nothing. -/
theorem accounts_no_entries (hnot : ∀ items, ¬ Given entries "files" (.list items)) :
    Accounts modules entries (fun rule => rule.group = 6)
      (checkFiles (effectiveOptions entries)).findings := by
  have hproblems (value : Value) (hgiven : Given entries "files" value) :
      fileProblems entries value = [⟨"files", .filesNotAList⟩] := by
    unfold fileProblems
    split
    · exact absurd hgiven (hnot _)
    · rfl
  refine Accounts.refused .files _ (checks_files entries) hproblems fun other finding => ?_
  constructor
  · rintro ⟨hgroup, hbroken⟩
    cases hbroken with
    | files hgiven hnull hnone =>
      refine ⟨rfl, rfl, _, hgiven, ?_⟩
      rintro files (⟨hvalue, -⟩ | ⟨items, hvalue, -⟩)
      · exact hnull hvalue
      · exact hnone items hvalue
    | entry hgiven => exact absurd hgiven (hnot _)
    | _ => cases hgroup
  · rintro ⟨rfl, rfl, value, hgiven, hnone⟩
    have hnull : value ≠ .scalar .null := fun hvalue => hnone [] (.inl ⟨hvalue, rfl⟩)
    exact ⟨rfl, .files hgiven hnull fun items hvalue => hnot items (hvalue ▸ hgiven)⟩

theorem accounts_files (modules : List Hook.Module) (entries : List (Scalar × Value)) :
    Accounts modules entries (fun rule => rule.group = 6)
      (checkFiles (effectiveOptions entries)).findings := by
  by_cases hlist : ∃ items, Given entries "files" (.list items)
  · obtain ⟨items, hgiven⟩ := hlist
    exact accounts_entries hgiven
  · exact accounts_no_entries (not_exists.mp hlist)

/-! ### All options -/

/-- All problems are found, in the order of the rules. -/
theorem accounts_all {hook : Checked (Option Hook)}
    (hchecks : Checks entries hookOption (ReadsHook modules) none (hookProblems modules) hook) :
    Accounts modules entries (fun rule => rule.group < 7)
      (findingsOf (effectiveOptions entries) hook) := by
  have hnone : Accounts modules entries (fun rule => rule.group < 0) [] :=
    ⟨[], rfl, .nil,
      fun rule finding => iff_of_false List.not_mem_nil fun h => Nat.not_lt_zero _ h.1⟩
  have hall := (((((((hnone.append (accounts_texts modules entries)).append
    (accounts_opener modules entries)).append (accounts_flags modules entries)).append
    (accounts_globals modules entries)).append (accounts_depth modules entries)).append
    (accounts_hook hchecks)).append (accounts_files modules entries))
  refine (congrArg (Accounts modules entries _) ?_).mp hall
  simp only [findingsOf, textOptions, boolOptions, List.zipIdx_cons, List.zipIdx_nil,
    List.flatMap_cons, List.flatMap_nil, findings_checkText _ _ "@@", findings_checkText _ _ ".",
    findings_checkText _ _ "utf-8", findings_checkBool _ _ true, List.append_assoc, List.append_nil,
    List.nil_append]
  rfl

theorem Rule.group_lt (rule : Rule) : rule.group < 7 := by
  cases rule <;> simp [Rule.group]

variable {hook : Checked (Option Hook)}

/-- Nothing is found just if the options are valid. -/
theorem findingsOf_eq_nil_iff
    (hchecks : Checks entries hookOption (ReadsHook modules) none (hookProblems modules) hook) :
    findingsOf (effectiveOptions entries) hook = [] ↔ Valid modules entries := by
  simp only [findingsOf, List.append_eq_nil_iff, and_assoc,
    (checks_text entries _ _).findings_eq_nil_iff, (checks_flag entries _ _).findings_eq_nil_iff,
    (checks_globals entries).findings_eq_nil_iff, (checks_depth entries).findings_eq_nil_iff,
    (checks_files entries).findings_eq_nil_iff, hchecks.findings_eq_nil_iff,
    checkOpenerNotEmpty_eq_nil_iff]
  constructor
  · rintro ⟨hopener, hcloser, hincludes, hdocroot, hencoding, hempty, hmustache,
      hunescaped, hexpand, hglobals, hdepth, hhook, hfiles⟩
    have htexts : ∀ name ∈ textOptions, ∀ value, Given entries name value →
        ∃ text, ReadsText value text := by
      simp only [textOptions, List.forall_mem_cons]
      exact ⟨hopener, hcloser, hincludes, hdocroot, hencoding, List.forall_mem_nil _⟩
    have hflags : ∀ name ∈ boolOptions, ∀ value, Given entries name value →
        ∃ flag, ReadsFlag value flag := by
      simp only [boolOptions, List.forall_mem_cons]
      exact ⟨hmustache, hunescaped, hexpand, List.forall_mem_nil _⟩
    exact ⟨htexts, hempty, hflags, hglobals, hdepth, hhook, hfiles⟩
  · rintro ⟨htexts, hempty, hflags, hglobals, hdepth, hhook, hfiles⟩
    simp only [textOptions, boolOptions, List.forall_mem_cons] at htexts hflags
    obtain ⟨hopener, hcloser, hincludes, hdocroot, hencoding, -⟩ := htexts
    obtain ⟨hmustache, hunescaped, hexpand, -⟩ := hflags
    exact ⟨hopener, hcloser, hincludes, hdocroot, hencoding, hempty, hmustache, hunescaped, hexpand,
      hglobals, hdepth, hhook, hfiles⟩

/-- Then the configuration is what they say. -/
theorem describes_configOf
    (hchecks : Checks entries hookOption (ReadsHook modules) none (hookProblems modules) hook)
    (hnil : findingsOf (effectiveOptions entries) hook = []) :
    Describes modules entries (configOf (effectiveOptions entries) hook.value) := by
  simp only [findingsOf, List.append_eq_nil_iff, and_assoc] at hnil
  obtain ⟨hopener, hcloser, hincludes, hdocroot, hencoding, -, hmustache, hunescaped,
    hexpand, hglobals, hdepth, hhook, hfiles⟩ := hnil
  exact {
    opener := (checks_text entries "prefix" "@@").optionIs hopener
    closer := (checks_text entries "suffix" "").optionIs hcloser
    includesDir := (checks_text entries "includes_dir" "").optionIs hincludes
    docroot := (checks_text entries "docroot" ".").optionIs hdocroot
    encoding := (checks_text entries "encoding" "utf-8").optionIs hencoding
    useMustache := (checks_flag entries "use_mustache" true).optionIs hmustache
    alwaysUnescaped := (checks_flag entries "always_unescaped" false).optionIs hunescaped
    expandValues := (checks_flag entries "expand_values" true).optionIs hexpand
    globals := (checks_globals entries).optionIs hglobals
    maxDepth := (checks_depth entries).optionIs hdepth
    hook := hchecks.optionIs hhook
    files := (checks_files entries).optionIs hfiles }

/-- Whatever a loader found before, it accepts options just if they are valid, and returns what they
say. It refuses all others with the records of the rules that are broken, in the order of the rules,
and with nothing else. The only options left out are those that name a hook without a root. -/
theorem readValue_accepts (modules : List Hook.Module) (entries : List (Scalar × Value))
    (loader : Loader) (hroot : ∀ target, Given entries hookOption (.scalar (.text target)) →
      ¬ Hook.IsRootless target) :
    let outcome := ((readValue modules (.map entries)).run.run loader).1
    ((∃ config, outcome = .ok config) ↔ Valid modules entries) ∧
      (∀ config, outcome = .ok config → Describes modules entries config) ∧
      (¬ Valid modules entries → ∃ broken : List (Rule × Finding), broken ≠ [] ∧
        outcome = .error (.invalid (broken.map Prod.snd)) ∧
        broken.Pairwise (fun one other => one.1.Before other.1) ∧
        ∀ rule finding, (rule, finding) ∈ broken ↔ Broken modules entries rule finding) := by
  intro outcome
  obtain ⟨hook, hhook, hchecks⟩ := exists_checks_hook modules hroot
  have houtcome : outcome = settled (findingsOf (effectiveOptions entries) hook)
      (configOf (effectiveOptions entries) hook.value) := by
    simp only [outcome, readValue_map, readOptions_eq hhook, List.nil_append]
  rw [houtcome, ← findingsOf_eq_nil_iff hchecks]
  obtain ⟨broken, hfindings, hordered, hbroken⟩ := accounts_all hchecks
  by_cases hnil : findingsOf (effectiveOptions entries) hook = []
  · rw [hnil, settled_nil]
    refine ⟨iff_of_true ⟨_, rfl⟩ rfl, ?_, fun h => absurd rfl h⟩
    rintro config ⟨⟩
    exact describes_configOf hchecks hnil
  · rw [settled_of_ne_nil hnil]
    refine ⟨iff_of_false nofun hnil, nofun, fun _ => ⟨broken, ?_, by rw [hfindings], hordered, ?_⟩⟩
    · rintro rfl
      exact hnil hfindings
    · intro rule finding
      rw [hbroken]
      exact and_iff_right rule.group_lt

/-- A module with a hook that leaves texts as they are. -/
def plainHooks : Hook.Module :=
  ⟨"hooks", [("keep", some ⟨"keep", fun text vars _ => .ok (text, vars)⟩)]⟩

/-- Options with several faults. A bound on the depth that is none stands behind one that is
right. -/
def faulty : List (Scalar × Value) :=
  [(.text "max_depth", .scalar (.int 5)), (.text "prefix", .scalar (.text [])),
    (.text "files",
      .list [.map [(.text "src", .list [])], .map [(.text "src", .scalar (.text "*.txt")),
        (.text "dest", .scalar (.text "out/"))], .outerMap]),
    (.text "useMustache", .scalar (.int 1)),
    (.text "globals", .map [(.int 7, .scalar .null), (.text "title", .list []),
      (.null, .scalar .null)]),
    (.text "processIncludeContents", .scalar (.text "hooks:keep")),
    (.text "maxDepth", .scalar (.bool true))]

/-- A loader that has failed before finds all the faults, and not the earlier one again. -/
theorem readValue_faulty :
    let outcome :=
      ((readValue [plainHooks] (.map faulty)).run.run ⟨[⟨"suffix", .notAText "int"⟩]⟩).1
    outcome = .error (.invalid [⟨"prefix", .isEmpty⟩, ⟨"use_mustache", .notABool "int"⟩,
      ⟨"globals", .variableName "7"⟩, ⟨"globals", .variableName "None"⟩,
      ⟨"max_depth", .notPositive⟩, ⟨"files[0]", .badSources⟩, ⟨"files[2]", .badSources⟩]) ∧
    ¬ Valid [plainHooks] faulty := by
  have hhook : Given faulty hookOption (.scalar (.text "hooks:keep")) :=
    ⟨faulty.take 5, .text "processIncludeContents", faulty.drop 6, rfl, by decide, by decide⟩
  have hroot (target : Text) (h : Given faulty hookOption (.scalar (.text target))) :
      ¬ Hook.IsRootless target := by
    cases hhook.unique h
    rintro ⟨-, hhead⟩
    simp at hhead
  have hoptions := readValue_accepts [plainHooks] faulty ⟨[⟨"suffix", .notAText "int"⟩]⟩ hroot
  intro outcome
  have houtcome :
    outcome = .error (.invalid [⟨"prefix", .isEmpty⟩, ⟨"use_mustache", .notABool "int"⟩,
      ⟨"globals", .variableName "7"⟩, ⟨"globals", .variableName "None"⟩,
      ⟨"max_depth", .notPositive⟩, ⟨"files[0]", .badSources⟩, ⟨"files[2]", .badSources⟩]) := by rfl
  refine ⟨houtcome, fun hvalid => ?_⟩
  obtain ⟨config, hconfig⟩ := hoptions.1.mpr hvalid
  cases houtcome.symm.trans hconfig

end Splice.Config
