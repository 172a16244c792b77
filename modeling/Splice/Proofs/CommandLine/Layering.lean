import Splice.Proofs.CommandLine.Agreement
import Splice.Proofs.Json.Carrying

/-!
# Layers of global variables

The global variables of a command are those of its configuration, then the fields of a JSON file,
then the arguments that bind a name, as if each layer were defined after the one before it.

* `CommandLine.definitions` — the definitions of all layers in their order;
* `CommandLine.Command.Loads`, `CommandLine.FileHolds` — the configuration and the fields that a
  command finds;
* `CommandLine.Command.proceed` — what a command does with a configuration that is complete; and
* `CommandLine.execute_layered` — a call goes on with what the definitions leave, or ends because of
  an argument that binds no name.
-/

namespace Splice.CommandLine

variable {modules : List Hook.Module} {tree : Tree} {config : Config} {source : GlobalsSource}
  {fields : List (Text × Json)} {command : Command} {item : Text} {items : List Text}

/-! ### Arguments that bind a name -/

/-- The name in front of the first equality sign, and the text behind it. -/
def itemDefinition (item : Text) : Text × Value :=
  (item.takeWhile (· ≠ '='), .ofText ((item.dropWhile (· ≠ '=')).drop 1))

theorem cut?_of_mem {sep : Char} {text : Text} (h : sep ∈ text) :
    Text.cut? sep text = some (text.takeWhile (· ≠ sep), (text.dropWhile (· ≠ sep)).drop 1) := by
  induction text with
  | nil => cases h
  | cons c text ih =>
    rw [Text.cut?]
    by_cases hc : c = sep
    · simp [hc]
    · rw [if_neg hc, ih ((List.mem_cons.mp h).resolve_left (Ne.symm hc))]
      simp [hc]

theorem readItem_of_mem (h : '=' ∈ item) : readItem item = .ok (itemDefinition item) := by
  rw [readItem, cut?_of_mem h]
  rfl

theorem readItem_of_not_mem (h : '=' ∉ item) : readItem item = .error (.badItem item) := by
  have hcut : Text.cut? '=' item = none := by
    rw [← Option.not_isSome_iff_eq_none, Hook.cut?_isSome_iff]
    exact h
  rw [readItem, hcut]

theorem mapM_readItem (h : ∀ item ∈ items, '=' ∈ item) :
    items.mapM readItem = .ok (items.map itemDefinition) := by
  induction items with
  | nil => rfl
  | cons item items ih =>
    obtain ⟨hitem, hitems⟩ := List.forall_mem_cons.mp h
    rw [List.mapM_cons, readItem_of_mem hitem, ih hitems]
    rfl

/-- An argument without an equality sign is reported. -/
theorem mapM_readItem_error (h : ∃ item ∈ items, '=' ∉ item) :
    ∃ item, items.mapM readItem = .error (.badItem item) := by
  induction items with
  | nil => simp at h
  | cons item items ih =>
    rw [List.mapM_cons]
    by_cases hitem : '=' ∈ item
    · obtain ⟨bad, hbad⟩ := ih (by simpa [hitem] using h)
      rw [readItem_of_mem hitem, hbad]
      exact ⟨bad, rfl⟩
    · rw [readItem_of_not_mem hitem]
      exact ⟨item, rfl⟩

/-! ### The file of global variables -/

/-- The file of global variables holds an object with these fields; without a file there are
none. -/
inductive FileHolds (tree : Tree) : Option Text → List (Text × Json) → Prop where
  /-- There is no file. -/
  | none : FileHolds tree none []
  /-- There is one. -/
  | some {path text : Text} {fields : List (Text × Json)}
      (hread : File.readLines tree (Path.plain path) = .ok text)
      (hparse : Json.parse text = .ok (.obj fields)) : FileHolds tree (some path) fields

/-- A field as a definition. -/
def fieldDefinition (field : Text × Json) : Text × Value := (field.1, .ofJson field.2)

theorem has_of_readLines {path text : Text} (h : File.readLines tree path = .ok text) :
    tree.has path = true := by
  cases hread : File.readBytes tree path with
  | error e =>
    rw [File.readLines, hread] at h
    cases h
  | ok bytes => exact File.has_of_readBytes hread

theorem readGlobalsFile_eq {path text : Text}
    (hread : File.readLines tree (Path.plain path) = .ok text)
    (hparse : Json.parse text = .ok (.obj fields)) :
    readGlobalsFile tree path = .ok (fields.map fieldDefinition) := by
  unfold readGlobalsFile
  simp only [has_of_readLines hread, hread, Bool.not_true, Bool.false_eq_true, if_false,
    Except.mapError, bind, Except.bind, hparse]
  rfl

/-- The variables in the file, if there is one. -/
def readFields (tree : Tree) : Option Text → Except GlobalsError (Bindings Value)
  | some path => readGlobalsFile tree path
  | none => .ok []

theorem readFields_eq {file : Option Text} (h : FileHolds tree file fields) :
    readFields tree file = .ok (fields.map fieldDefinition) := by
  cases h with
  | none => rfl
  | some hread hparse => exact readGlobalsFile_eq hread hparse

/-- What the arguments bind is laid over the variables in the file. -/
theorem readGlobals_eq (tree : Tree) (source : GlobalsSource) :
    readGlobals tree source =
      (readFields tree source.file).bind fun lower =>
        (source.items.mapM readItem).map (Bindings.overlay lower) := by
  unfold readGlobals readFields
  cases source.file with
  | none => cases source.items.mapM readItem <;> rfl
  | some path => cases readGlobalsFile tree path <;> cases source.items.mapM readItem <;> rfl

theorem nodup_names_fields {file : Option Text} (h : FileHolds tree file fields) :
    (Bindings.names (fields.map fieldDefinition)).Nodup := by
  have hnames : Bindings.names (fields.map fieldDefinition) = Bindings.names fields := by
    simp [Bindings.names, fieldDefinition]
  rw [hnames]
  cases h with
  | none => exact List.nodup_nil
  | some _ hparse =>
    have hall := Json.all_of_parse hparse
    simp only [Json.all, Json.isLegible, Json.isDistinct, Bool.and_eq_true,
      decide_eq_true_eq] at hall
    exact hall.1.2

/-! ### Complete configurations -/

/-- The definitions of global variables: those of the configuration, the fields, and the
arguments. -/
def definitions (config : Config) (fields : List (Text × Json)) (items : List Text) :
    List (Text × Value) :=
  config.globals ++ fields.map fieldDefinition ++ items.map itemDefinition

/-- A configuration is completed by what the definitions leave. -/
theorem complete_eq (hglobals : (Bindings.names config.globals).Nodup)
    (hfile : FileHolds tree source.file fields) (hitems : ∀ item ∈ source.items, '=' ∈ item) :
    complete tree source (.ok config) =
      .ok { config with globals := Bindings.ofList (definitions config fields source.items) } := by
  have hlayers :=
    Bindings.overlay_overlay hglobals (nodup_names_fields hfile) (source.items.map itemDefinition)
  rw [complete, readGlobals_eq, readFields_eq hfile, mapM_readItem hitems, definitions, ← hlayers]
  rfl

/-- An argument that binds no name leaves no configuration, and it is reported unless something else
is wrong. -/
theorem complete_error (h : ∃ item ∈ source.items, '=' ∉ item) (tree : Tree)
    (loaded : Except Config.LoadError Config) :
    ∃ error, complete tree source loaded = .error error ∧
      ∀ config fields, loaded = .ok config → FileHolds tree source.file fields →
        ∃ item, error = .globals (.badItem item) := by
  obtain ⟨bad, hbad⟩ := mapM_readItem_error h
  cases loaded with
  | error e => exact ⟨.load e, rfl, nofun⟩
  | ok config =>
    cases hfields : readFields tree source.file with
    | error e =>
      refine ⟨.globals e, ?_, fun _ _ _ hfile => ?_⟩
      · rw [complete, readGlobals_eq, hfields]
        rfl
      · cases hfields.symm.trans (readFields_eq hfile)
    | ok lower =>
      refine ⟨.globals (.badItem bad), ?_, fun _ _ _ _ => ⟨bad, rfl⟩⟩
      rw [complete, readGlobals_eq, hfields, hbad]
      rfl

/-! ### Commands -/

/-- The command finds this configuration: that in its file, or the default one if a file is rendered
without any. -/
inductive Command.Loads (modules : List Hook.Module) (tree : Tree) : Command → Config → Prop where
  /-- The files of a configuration are processed. -/
  | run {path : Text} {dryRun : Bool} {config : Config} (hnull : '\x00' ∉ path)
      (hload : Config.load modules tree (Path.resolve tree.cwd path) = .ok config) :
      Loads modules tree (.run path dryRun) config
  /-- A file is rendered with a configuration. -/
  | render {file path : Text} {options : RenderOptions} {config : Config}
      (hpath : options.config = some path)
      (hload : Config.load modules tree (Path.plain path) = .ok config) :
      Loads modules tree (.render file options) config
  /-- A file is rendered with the default configuration. -/
  | standard {file : Text} {options : RenderOptions} (hpath : options.config = none) :
      Loads modules tree (.render file options) {}

namespace Command.Loads

theorem nodup_globals (h : command.Loads modules tree config) :
    (Bindings.names config.globals).Nodup := by
  cases h with
  | run _ hload => exact Config.nodup_globals hload
  | render _ hload => exact Config.nodup_globals hload
  | standard _ => exact List.nodup_nil

theorem load_run {path : Text} {dryRun : Bool}
    (h : (Command.run path dryRun).Loads modules tree config) :
    '\x00' ∉ path ∧ tree.has (Path.resolve tree.cwd path) = true ∧
      Config.load modules tree (Path.resolve tree.cwd path) = .ok config := by
  cases h with
  | run hnull hload => exact ⟨hnull, Config.has_of_load hload, hload⟩

theorem load_render {file : Text} {options : RenderOptions}
    (h : (Command.render file options).Loads modules tree config) :
    options.load modules tree = .ok (options.apply config) := by
  cases h with
  | render hpath hload =>
    simp only [RenderOptions.load, hpath, hload]
    rfl
  | standard hpath => simp only [RenderOptions.load, hpath]

end Command.Loads

section

variable [Codecs]

/-- What the command does with a configuration that is complete. -/
def Command.proceed (fuel : Nat) (tree : Tree) (config : Config) : Command → Option Session
  | .run path dryRun =>
      processOrCheck fuel dryRun config
        (Session.report { tree } .info ("Loading configuration: " ++ Path.resolve tree.cwd path))
  | .render file options => renderWith fuel (options.apply config) file options.out { tree }

variable {invocation : Invocation} {fuel : Nat}

/-- A command goes on with its configuration, in which the global variables are what the definitions
leave. -/
theorem Invocation.execute_eq (hload : invocation.command.Loads modules tree config)
    (hfile : FileHolds tree invocation.globals.file fields)
    (hitems : ∀ item ∈ invocation.globals.items, '=' ∈ item) :
    invocation.execute modules fuel tree =
      (invocation.command.proceed fuel tree
        { config with globals :=
            Bindings.ofList (definitions config fields invocation.globals.items) }).map
        (·.atLeast invocation.threshold) := by
  have hglobals := hload.nodup_globals
  obtain ⟨command, source, threshold⟩ := invocation
  cases command with
  | run path dryRun =>
    obtain ⟨hnull, hhas, hload⟩ := hload.load_run
    simp only [Invocation.execute, CommandLine.run, if_neg hnull, hhas, hload,
      complete_eq hglobals hfile hitems]
    rfl
  | render file options =>
    -- The options of the command line leave the global variables alone.
    have happly : (Bindings.names (options.apply config).globals).Nodup := hglobals
    simp only [Invocation.execute, CommandLine.render, hload.load_render,
      complete_eq happly hfile hitems]
    rfl

/-! ### Arguments that bind no name -/

/-- The session leaves the tree as it was, and its exit code is 2 if the command finds a
configuration and the fields. -/
def Command.Refuses (modules : List Hook.Module) (tree : Tree) (command : Command)
    (file : Option Text) (session : Session) : Prop :=
  session.tree = tree ∧ ∀ config fields, command.Loads modules tree config →
    FileHolds tree file fields → session.exit = .returned 2

theorem run_error (fuel : Nat) (path : Text) (dryRun : Bool)
    (h : ∃ item ∈ source.items, '=' ∉ item) :
    ∃ session, run modules fuel tree path dryRun source = some session ∧
      (Command.run path dryRun).Refuses modules tree source.file session := by
  unfold run
  split
  · rename_i hnull
    exact ⟨_, rfl, tree_fail _ _,
      fun _ _ hload => absurd hnull hload.load_run.1⟩
  · simp only
    split
    · rename_i hmissing
      refine ⟨_, rfl, rfl, fun _ _ hload => ?_⟩
      simp [hload.load_run.2.1] at hmissing
    · obtain ⟨error, hcomplete, hreport⟩ :=
        complete_error h tree (Config.load modules tree (Path.resolve tree.cwd path))
      rw [hcomplete]
      refine ⟨_, rfl, tree_fail _ _, fun config fields hload hfile => ?_⟩
      obtain ⟨item, rfl⟩ := hreport config fields hload.load_run.2.2 hfile
      exact exit_fail _ _ path dryRun

theorem render_error (fuel : Nat) (file : Text) (options : RenderOptions)
    (h : ∃ item ∈ source.items, '=' ∉ item) :
    ∃ session, render modules fuel tree file options source = some session ∧
      (Command.render file options).Refuses modules tree source.file session := by
  obtain ⟨error, hcomplete, hreport⟩ := complete_error h tree (options.load modules tree)
  refine ⟨Session.failExpected { tree } error, ?_,
    tree_failExpected _ _, fun config fields hload hfile => ?_⟩
  · simp only [render, hcomplete]
  · obtain ⟨item, rfl⟩ := hreport _ fields hload.load_render hfile
    exact exit_failExpected _ _ file options

/-- A command with an argument that binds no name ends without a change. -/
theorem Invocation.execute_error (h : ∃ item ∈ invocation.globals.items, '=' ∉ item) :
    ∃ session, invocation.execute modules fuel tree = some session ∧
      invocation.command.Refuses modules tree invocation.globals.file session := by
  obtain ⟨command, source, threshold⟩ := invocation
  cases command with
  | run path dryRun =>
    obtain ⟨session, hrun, hrefuses⟩ := run_error fuel path dryRun h
    refine ⟨session.atLeast threshold, ?_, hrefuses⟩
    simp only [Invocation.execute, hrun]
    rfl
  | render file options =>
    obtain ⟨session, hrender, hrefuses⟩ := render_error fuel file options h
    refine ⟨session.atLeast threshold, ?_, hrefuses⟩
    simp only [Invocation.execute, hrender]
    rfl

/-! ### Calls -/

/-- The global variables of a call are what the definitions of all layers leave: just the names that
are defined, in the order of their first definitions, each with the value of its last one. Nothing
else in the configuration is changed. An argument that binds no name ends the call with the exit
code 2. -/
theorem execute_layered (modules : List Hook.Module) (fuel : Nat) (tree : Tree) (args : List Text)
    (invocation : Invocation) (hparse : parse args = .ok (some invocation)) :
    (∀ config fields, invocation.command.Loads modules tree config →
      FileHolds tree invocation.globals.file fields →
      (∀ item ∈ invocation.globals.items, '=' ∈ item) →
      ∃ globals, Bindings.LeftBy (definitions config fields invocation.globals.items) globals ∧
        execute modules fuel tree args =
          (invocation.command.proceed fuel tree { config with globals }).map
            (·.atLeast invocation.threshold)) ∧
    ((∃ item ∈ invocation.globals.items, '=' ∉ item) →
      ∃ session, execute modules fuel tree args = some session ∧ session.tree = tree ∧
        ∀ config fields, invocation.command.Loads modules tree config →
          FileHolds tree invocation.globals.file fields → session.exit = .returned 2) := by
  have hexecute : execute modules fuel tree args = invocation.execute modules fuel tree := by
    rw [execute, hparse]
  rw [hexecute]
  refine ⟨fun config fields hload hfile hitems => ?_, Invocation.execute_error⟩
  exact ⟨_, Bindings.leftBy_ofList _, Invocation.execute_eq hload hfile hitems⟩

end

/-- A site with a page, and with a configuration and a JSON file that bind variables. -/
def layeredSite : Tree where
  cwd := "/site"
  entries := [(["site"], .directory), (["site", "a"], .file (Encoding.encodeUtf8 "x")),
    (["site", "c"], .file (Encoding.encodeUtf8 "globals: \x7bk: c, l: c\x7d")),
    (["site", "g"], .file (Encoding.encodeUtf8 "\x7b\"l\": \"f\", \"m\": \"f\"\x7d"))]

/-- Arguments that name the JSON file and bind variables as well. -/
def layeredArgs : List Text :=
  ["--globals-file", "g", "--global", "m=p", "--global", "n=1=2", "--global", "m="]

/-- What these arguments say about global variables. -/
def layeredSource : GlobalsSource := ⟨["m=p", "n=1=2", "m="], some ['g']⟩

/-- The variables of the site with these arguments. -/
def layeredGlobals : Bindings Value :=
  [("k", .ofText "c"), ("l", .ofText "f"), ("m", .ofText []), ("n", .ofText "1=2")]

/-- The bindings are those of texts. -/
def bindsTexts (texts : Bindings Text) (bindings : Bindings Value) : Bool :=
  decide (bindings.map (fun binding => (binding.1, binding.2.toText?)) =
    texts.map fun binding => (binding.1, some binding.2))

theorem eq_of_bindsTexts {texts : Bindings Text} {bindings : Bindings Value}
    (h : bindsTexts texts bindings = true) :
    bindings = texts.map fun binding => (binding.1, .ofText binding.2) := by
  replace h := of_decide_eq_true h
  induction bindings generalizing texts with
  | nil =>
    cases texts with
    | nil => rfl
    | cons text texts => cases h
  | cons binding bindings ih =>
    cases texts with
    | nil => cases h
    | cons text texts =>
      obtain ⟨hfirst, hrest⟩ := List.cons.inj h
      obtain ⟨hname, hvalue⟩ := Prod.mk.inj hfirst
      rw [List.map_cons, ← ih hrest, ← hname]
      exact congrArg (fun value => (binding.1, value) :: bindings) (Config.eq_of_toText? hvalue)

/-- The configuration of the site binds these variables. -/
def configTexts : Bindings Text := [("k", "c"), ("l", "c")]

theorem load_layeredSite :
    ∃ config, Config.load [] layeredSite (Path.plain "c") = .ok config ∧
      config.globals = configTexts.map fun binding => (binding.1, .ofText binding.2) := by
  have hload : (Config.load [] layeredSite (Path.plain "c")).toOption.any
      (fun config => bindsTexts configTexts config.globals) = true := by
    decide +kernel
  cases hresult : Config.load [] layeredSite (Path.plain "c") with
  | error e =>
    rw [hresult] at hload
    cases hload
  | ok config =>
    rw [hresult] at hload
    exact ⟨config, rfl, eq_of_bindsTexts hload⟩

/-- The fields of the JSON file. -/
def layeredFields : List (Text × Json) := [("l", .str "f"), ("m", .str "f")]

theorem fileHolds_layeredSite : FileHolds layeredSite layeredSource.file layeredFields := by
  have hread : File.readLines layeredSite (Path.plain ['g']) =
      .ok ("\x7b\"l\": \"f\", \"m\": \"f\"\x7d" : Text) := by
    decide
  refine .some hread ?_
  cbv

/-- Both commands go on with these variables, and an argument without an equality sign ends the
call. -/
theorem execute_layered_layeredSite :
    (∃ config, Config.load [] layeredSite (Path.plain "c") = .ok config ∧
      execute [] 2 layeredSite ("run" :: "c" :: layeredArgs) =
        ((Command.run "c" false).proceed 2 layeredSite
          { config with globals := layeredGlobals }).map (·.atLeast .info) ∧
      execute [] 2 layeredSite ("render" :: "a" :: "--config" :: "c" :: layeredArgs) =
        ((Command.render "a" { config := some ['c'] }).proceed 2 layeredSite
          { config with globals := layeredGlobals }).map (·.atLeast .info)) ∧
      ∃ session, execute [] 2 layeredSite ["run", "c", "--global", "m"] = some session ∧
        session.exit = .returned 2 ∧ session.tree = layeredSite := by
  obtain ⟨config, hload, hglobals⟩ := load_layeredSite
  have hresolved := Config.load_resolve (by decide : layeredSite.Closed) hload
  have hleft {globals : Bindings Value}
      (h : Bindings.LeftBy (definitions config layeredFields layeredSource.items) globals) :
      globals = layeredGlobals := by
    rw [Bindings.leftBy_iff.mp h, definitions, hglobals]
    cbv
  have hitems : ∀ item ∈ layeredSource.items, '=' ∈ item := by simp [layeredSource]
  refine ⟨⟨config, hload, ?_, ?_⟩, ?_⟩
  · obtain ⟨globals, hglobals, hrun⟩ :=
      (execute_layered [] 2 layeredSite ("run" :: "c" :: layeredArgs) ⟨.run "c" false,
        layeredSource, .info⟩ (by decide +kernel)).1 config layeredFields
          (.run (by decide) hresolved) fileHolds_layeredSite hitems
    rw [hrun, hleft hglobals]
  · obtain ⟨globals, hglobals, hrender⟩ := (execute_layered [] 2 layeredSite
      ("render" :: "a" :: "--config" :: "c" :: layeredArgs)
      ⟨.render "a" { config := some ['c'] }, layeredSource, .info⟩ (by decide +kernel)).1
        config layeredFields (.render rfl hload) fileHolds_layeredSite hitems
    rw [hrender, hleft hglobals]
  · obtain ⟨session, hrun, htree, hexit⟩ :=
      (execute_layered [] 2 layeredSite ["run", "c", "--global", "m"] ⟨.run "c" false,
        { items := [['m']] }, .info⟩ (by decide +kernel)).2 ⟨['m'], by simp, by simp⟩
    exact ⟨session, hrun, hexit config [] (.run (by decide) hresolved) .none, htree⟩

end Splice.CommandLine
