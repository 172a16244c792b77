import Splice.Proofs.CommandLine.Exits
import Splice.Proofs.CommandLine.Reading
import Splice.Proofs.Config.Loading
import Splice.Proofs.Runner.Passing

/-!
# Two commands for one file

A configuration with a single file can be processed, or this file can be rendered with the options
of the configuration. Both succeed or neither, with the same tree.

* `CommandLine.Succeeds` — a call ends with the exit code 0;
* `CommandLine.run_succeeds_iff`, `CommandLine.render_succeeds_iff` — when the commands succeed; and
* `CommandLine.succeeds_run_iff_render` — the commands agree.
-/

namespace Splice.CommandLine

variable {modules : List Hook.Module} {tree left : Tree} {session : Session} {config : Config}
  {source : GlobalsSource} {error : Error} {command : Command} {mapping : FileMapping}
  {path file : Text} {settings : List Setting}

/-! ### Calls that succeed -/

/-- The computation ends with the exit code 0 and leaves the tree. -/
def SucceedsWith (x : Nat → Option Session) (left : Tree) : Prop :=
  ∃ fuel session, x fuel = some session ∧ session.exit = .returned 0 ∧ session.tree = left

theorem succeedsWith_iff {x : Nat → Option Session} :
    SucceedsWith x left ↔ ∃ fuel, (x fuel).map Session.final = some (left, .returned 0) := by
  simp only [SucceedsWith, Option.map_eq_some_iff, Session.final, Prod.mk.injEq]
  exact exists_congr fun fuel => exists_congr fun session => and_congr_right fun _ => and_comm

theorem succeedsWith_atLeast_iff {x : Nat → Option Session} {threshold : Severity} :
    SucceedsWith (fun fuel => (x fuel).map (·.atLeast threshold)) left ↔ SucceedsWith x left := by
  simp only [succeedsWith_iff, Option.map_map]
  rfl

/-- An error ends a command with the exit code 0 only if it brings this exit code with it. -/
theorem Error.ending_eq_iff : error.ending command = .returned 0 ↔ error.treatment = .plain 0 := by
  unfold Error.ending
  cases htreatment : error.treatment with
  | plain code => cases command <;> simp [Command.DealsWith, Treatment.code]
  | missing => cases command <;> simp [Command.DealsWith, Treatment.code]
  | invalid => cases command <;> simp [Command.DealsWith, Treatment.code]
  | unexpected => cases command <;> simp [Command.DealsWith, Treatment.code]
  | leaving => cases command <;> simp [Command.DealsWith]

/-- All commands end with the exit code 0 with this result: there is no failure, or one of a hook
that brings this exit code with it. -/
def EndsWithZero (result : Except Failure Unit) : Prop :=
  ∀ failure, result = .error failure → failureTreatment failure = .plain 0

theorem exitWith_eq_iff {result : Except Failure Unit} :
    exitWith command result = .returned 0 ↔ EndsWithZero result := by
  cases result with
  | ok _ => exact iff_of_true rfl nofun
  | error failure =>
    refine Error.ending_eq_iff.trans ⟨?_, fun h => h failure rfl⟩
    rintro h _ ⟨⟩
    exact h

/-- A command that ends like this step succeeds just if the step has such a result. -/
theorem succeedsWith_of_final {x : Nat → Option Session} {α : Type} {step : Nat → Runner.Step α}
    (h : ∀ fuel, (x fuel).map Session.final =
      (Runner.ending (step fuel)).map fun (left, result) => (left, exitWith command result)) :
    SucceedsWith x left ↔
      ∃ fuel result, Runner.ending (step fuel) = some (left, result) ∧ EndsWithZero result := by
  rw [succeedsWith_iff]
  refine exists_congr fun fuel => ?_
  rw [h fuel, Option.map_eq_some_iff]
  simp only [Prod.exists, Prod.mk.injEq, exitWith_eq_iff]
  constructor
  · rintro ⟨_, result, hstep, rfl, hzero⟩
    exact ⟨result, hstep, hzero⟩
  · rintro ⟨result, hstep, hzero⟩
    exact ⟨left, result, hstep, rfl, hzero⟩

theorem not_succeedsWith {x : Nat → Option Session} (ended : Session)
    (h : ∀ fuel, x fuel = some ended) (hexit : ended.exit ≠ .returned 0) :
    ¬ SucceedsWith x left := by
  rintro ⟨fuel, session, hsession, hzero, -⟩
  cases (h fuel).symm.trans hsession
  exact hexit hzero

theorem treatment_of_complete {loaded : Except Config.LoadError Config}
    (h : complete tree source loaded = .error error) : error.treatment ≠ .plain 0 := by
  have hkind : (∃ e, error = .load e) ∨ ∃ e, error = .globals e := by
    unfold complete at h
    cases loaded with
    | error e => exact .inl ⟨e, (Except.error.inj h).symm⟩
    | ok config =>
      cases hglobals : readGlobals tree source with
      | error e =>
        rw [hglobals] at h
        exact .inr ⟨e, (Except.error.inj h).symm⟩
      | ok globals =>
        rw [hglobals] at h
        cases h
  -- Only a hook brings an exit code with it, and none has been called.
  rcases hkind with ⟨e, rfl⟩ | ⟨e, rfl⟩ <;>
    simp only [Error.treatment, globalsTreatment, documentTreatment, fileTreatment] <;> grind

theorem treatment_of_prepare {failure : Failure} (h : Expansion.prepare config = .error failure) :
    failureTreatment failure ≠ .plain 0 := by
  unfold Expansion.prepare at h
  split at h
  · cases h
  · cases h
    decide

/-! ### Arguments and options -/

/-- The arguments that process the configuration in a file. -/
def runArgs (path : Text) (settings : List Setting) : List Text :=
  "run" :: path :: settings.flatMap Setting.args

/-- The arguments that render a file to another one, with the configuration in a file. -/
def renderArgs (file path out : Text) (settings : List Setting) : List Text :=
  "render" :: file :: "--config" :: path :: "--out" :: out :: settings.flatMap Setting.args

/-- Both commands take the argument for a plain one, or neither does. -/
def ReadAlike (arg : Text) : Prop := IsPlain runOptions arg ↔ IsPlain renderOptions arg

theorem isPlain_of_head {known : List Opt} {arg : Text} (h : arg.head? ≠ some '-') :
    IsPlain known arg := by
  unfold IsPlain word
  split
  · simp at h
  · simp at h
  · simp at h
  · simp at h
  · refine ⟨?_, rfl⟩
    rintro rfl
    simp at h

theorem isRead_iff
    (h : ∀ setting ∈ settings, setting.isAttached = false → ReadAlike setting.value) :
    (∀ setting ∈ settings, setting.IsRead runOptions) ↔
      ∀ setting ∈ settings, setting.IsRead renderOptions := by
  refine forall₂_congr fun setting hsetting => forall_congr' fun hseparate => ?_
  exact h setting hsetting hseparate

/-- The options of the command line that renders with a configuration do not change it. -/
theorem load_out_config (modules : List Hook.Module) (tree : Tree) (out path : Text) :
    RenderOptions.load { out := some out, config := some path } modules tree =
      Config.load modules tree (Path.plain path) := by
  show (Config.load modules tree (Path.plain path)).map _ = _
  cases Config.load modules tree (Path.plain path) with
  | error e => rfl
  | ok config =>
    show Except.ok (RenderOptions.apply { out := some out, config := some path } config) = _
    simp [RenderOptions.apply]

theorem complete_ok {config completed : Config}
    (h : complete tree source (.ok config) = .ok completed) :
    ∃ globals, completed = config.withGlobals globals := by
  unfold complete at h
  cases hglobals : (readGlobals tree source).mapError Error.globals with
  | error error =>
    rw [hglobals] at h
    cases h
  | ok globals =>
    rw [hglobals] at h
    cases h
    exact ⟨globals, rfl⟩

theorem destinationFor_ne_nil {dest : Text} (h : dest ≠ []) (file : Text) :
    Runner.destinationFor file dest ≠ [] := by
  unfold Runner.destinationFor
  split
  · unfold Path.join
    split
    · rename_i habsolute
      intro hnil
      rw [hnil] at habsolute
      cases habsolute
    · split <;> simp [h]
  · exact h

/-- If the global variables and the bound on the depth can be shown, then so can all options. -/
theorem isShowable_of_prepare (hdepth : (Scalar.int config.maxDepth).isShowable = true)
    (hprepare : Expansion.prepare config = .ok ()) : config.isShowable = true := by
  unfold Expansion.prepare at hprepare
  split at hprepare
  · rename_i hglobals
    exact Bool.and_eq_true_iff.mpr ⟨hdepth, hglobals⟩
  · cases hprepare

section

variable [Codecs]

/-- A call with these arguments ends with the exit code 0 and leaves the tree. -/
def Succeeds (modules : List Hook.Module) (tree : Tree) (args : List Text) (left : Tree) : Prop :=
  SucceedsWith (fun fuel => execute modules fuel tree args) left

/-- A call succeeds if its arguments name a command that succeeds. -/
theorem succeeds_iff {args : List Text} :
    Succeeds modules tree args left ↔
      ∃ invocation, parse args = .ok (some invocation) ∧
        SucceedsWith (fun fuel => invocation.execute modules fuel tree) left := by
  unfold Succeeds SucceedsWith execute
  cases hparse : parse args with
  | error stop =>
    cases stop with
    | help => simp
    | refused => simp
  | ok invocation =>
    cases invocation with
    | none => simp
    | some invocation => simp

/-! ### Processing a configuration -/

/-- A run of a new runner ends with such a result and leaves the tree. -/
def RunSucceeds (config : Config) (tree left : Tree) : Prop :=
  ∃ fuel result, Runner.ending (Runner.run config fuel (.new tree)) = some (left, result) ∧
    EndsWithZero result

theorem process_succeeds_iff (hexit : session.exit = .returned 0) :
    SucceedsWith (fun fuel => process fuel config session) left ↔
      Expansion.prepare config = .ok () ∧ RunSucceeds config session.tree left := by
  cases hprepare : Expansion.prepare config with
  | error failure =>
    refine iff_of_false (not_succeedsWith (session.fail (.expansion failure)) ?_ ?_) nofun
    · intro fuel
      simp only [process, hprepare]
    · rw [exit_fail session _ [] false]
      exact mt Error.ending_eq_iff.mp (treatment_of_prepare hprepare)
  | ok =>
    rw [and_iff_right rfl]
    exact succeedsWith_of_final fun fuel => final_process [] false hexit hprepare

/-- Processing a configuration succeeds just if there is one, and a run over its files does. -/
theorem run_succeeds_iff {path : Text} :
    SucceedsWith (fun fuel => run modules fuel tree path false source) left ↔
      ('\x00' ∉ path ∧ tree.has (Path.resolve tree.cwd path) = true) ∧
        ∃ config, complete tree source (Config.load modules tree (Path.resolve tree.cwd path)) =
          .ok config ∧
          Expansion.prepare config = .ok () ∧ RunSucceeds config tree left := by
  by_cases hthere : '\x00' ∉ path ∧ tree.has (Path.resolve tree.cwd path) = true
  · rw [and_iff_right hthere]
    cases hload : complete tree source (Config.load modules tree (Path.resolve tree.cwd path)) with
    | error error =>
      obtain ⟨ended, hended⟩ := run_of_error ⟨hthere.1, hthere.2, hload⟩
      refine iff_of_false (not_succeedsWith _ (fun fuel => hended fuel false) ?_) (by simp)
      rw [exit_fail ended error path false]
      exact mt Error.ending_eq_iff.mp (treatment_of_complete hload)
    | ok config =>
      have hrun : (fun fuel => run modules fuel tree path false source) = fun fuel =>
          process fuel config (loaded tree path config) := by
        funext fuel
        exact run_of_config ⟨hthere.1, hthere.2, hload⟩
      rw [hrun, process_succeeds_iff (exit_loaded tree path config), tree_loaded]
      simp
  · refine iff_of_false ?_ fun h => hthere h.1
    by_cases hnull : '\x00' ∈ path
    · refine not_succeedsWith _ (fun fuel => if_pos hnull) ?_
      rw [exit_fail _ _ path false]
      exact mt Error.ending_eq_iff.mp (by decide)
    · have hmissing : tree.has (Path.resolve tree.cwd path) ≠ true :=
        fun hhas => hthere ⟨hnull, hhas⟩
      refine not_succeedsWith (Session.refuse { tree }
        ("Configuration file not found: " ++ Path.resolve tree.cwd path)) (fun fuel => ?_) ?_
      · simp [run, hnull, hmissing]
      · simp [Session.refuse]

/-! ### Rendering a file -/

/-- A new runner ends with such a result for the file and leaves the tree. -/
def FileSucceeds (config : Config) (tree : Tree) (file out : Text) (left : Tree) : Prop :=
  ∃ fuel result, Runner.ending (Runner.processFile config fuel (.new tree) file out) =
    some (left, result) ∧ EndsWithZero result

/-- Rendering a file to another one ends like a new runner that processes the file. -/
theorem final_renderWith {file out : Text} {fuel : Nat} (options : RenderOptions)
    (hexit : session.exit = .returned 0) (hfile : session.tree.isFile file = true)
    (hprepare : Expansion.prepare config = .ok ()) :
    (renderWith fuel config file (some out) session).map Session.final =
      (Runner.ending (Runner.processFile config fuel (.new session.tree) file out)).map
        fun (left, result) => (left, exitWith (.render file options) result) := by
  have htree : ((Runner.new session.tree).report .info ("Processing " ++ file)).tree =
      session.tree := rfl
  unfold renderWith Runner.processFile
  simp only [hfile, hprepare, htree, Bool.not_true, Bool.false_eq_true, if_false]
  cases File.read session.tree file config.encoding with
  | error e => exact congrArg some (final_failExpected _ _ file options)
  | ok document =>
    simp only
    cases Expansion.expandDocument config session.tree fuel document file with
    | none => rfl
    | some outcome =>
      obtain ⟨warnings, failure | text⟩ := outcome
      · exact congrArg some (final_failExpected _ _ file options)
      · have hnoted : (((Runner.new session.tree).report .info ("Processing " ++ file)).noteIncludes
            warnings).tree = session.tree := rfl
        simp only [deliver, Runner.writeOutput, hnoted]
        cases File.write session.tree out text config.encoding with
        | mk left result =>
          cases result with
          | error e => exact congrArg some (final_failExpected _ _ file options)
          | ok => exact congrArg (fun exit => some (left, exit)) hexit

theorem renderWith_succeeds_iff {file out : Text} (hexit : session.exit = .returned 0) :
    SucceedsWith (fun fuel => renderWith fuel config file (some out) session) left ↔
      session.tree.isFile file = true ∧ Expansion.prepare config = .ok () ∧
        FileSucceeds config session.tree file out left := by
  by_cases hfile : session.tree.isFile file = true
  · rw [and_iff_right hfile]
    cases hprepare : Expansion.prepare config with
    | error failure =>
      refine iff_of_false (not_succeedsWith (session.failExpected (.expansion failure)) ?_ ?_)
        nofun
      · intro fuel
        simp [renderWith, hfile, hprepare]
      · rw [exit_failExpected session _ file {}]
        exact mt Error.ending_eq_iff.mp (treatment_of_prepare hprepare)
    | ok =>
      rw [and_iff_right rfl]
      exact succeedsWith_of_final fun fuel => final_renderWith {} hexit hfile hprepare
  · refine iff_of_false (not_succeedsWith (session.refuse ("Source file not found: " ++ file))
      (fun fuel => ?_) ?_) fun h => hfile h.1
    · simp [renderWith, hfile]
    · simp [Session.refuse]

/-- Rendering a file to another one succeeds just if there is a configuration, and a new runner
processes the file. -/
theorem render_succeeds_iff {file out : Text} {options : RenderOptions}
    (hout : options.out = some out) :
    SucceedsWith (fun fuel => render modules fuel tree file options source) left ↔
      ∃ config, complete tree source (options.load modules tree) = .ok config ∧
        tree.isFile file = true ∧ Expansion.prepare config = .ok () ∧
        FileSucceeds config tree file out left := by
  simp only [render]
  cases hload : complete tree source (options.load modules tree) with
  | error error =>
    refine iff_of_false (not_succeedsWith _ (fun fuel => rfl) ?_) (by simp)
    rw [exit_failExpected _ error file options]
    exact mt Error.ending_eq_iff.mp (treatment_of_complete hload)
  | ok config =>
    simp only [hout, renderWith_succeeds_iff, Except.ok.injEq, exists_eq_left']

/-! ### Both commands -/

/-- Processing the configuration in a file succeeds just if the arguments are read and a run
does. -/
theorem succeeds_runArgs_iff (hclosed : tree.Closed) (hmark : path ≠ ['-', '-'])
    (hload : Config.load modules tree (Path.plain path) = .ok config) :
    Succeeds modules tree (runArgs path settings) left ↔
      (IsPlain runOptions path ∧ ∀ setting ∈ settings, setting.IsRead runOptions) ∧
        ∃ completed, complete tree (globalsOf settings) (.ok config) = .ok completed ∧
          Expansion.prepare completed = .ok () ∧ RunSucceeds completed tree left := by
  -- A configuration that is loaded is found at the same place from its resolved path.
  have hresolve := Config.load_resolve hclosed hload
  have hhas : tree.has (Path.resolve tree.cwd path) = true := Config.has_of_load hresolve
  have hrun :
      SucceedsWith (fun fuel => run modules fuel tree path false (globalsOf settings)) left ↔ _ :=
    run_succeeds_iff
  rw [hresolve, and_iff_right ⟨(Config.path_of_load hclosed hload).2, hhas⟩] at hrun
  rw [succeeds_iff, runArgs]
  simp only [parse_run_iff hmark, Option.some.injEq]
  constructor
  · intro h
    obtain ⟨invocation, ⟨hplain, hread, hinvocation⟩, hsucceeds⟩ := h
    subst hinvocation
    exact ⟨⟨hplain, hread⟩, hrun.mp (succeedsWith_atLeast_iff.mp hsucceeds)⟩
  · intro h
    obtain ⟨⟨hplain, hread⟩, hruns⟩ := h
    exact ⟨_, ⟨hplain, hread, rfl⟩, succeedsWith_atLeast_iff.mpr (hrun.mpr hruns)⟩

/-- Rendering a file with the configuration in a file succeeds just if the arguments are read and
the file is processed. -/
theorem succeeds_renderArgs_iff {out : Text} (hfile : file.head? ≠ some '-')
    (hout : out.head? ≠ some '-') (hne : out ≠ []) (hpath : path ≠ [])
    (hload : Config.load modules tree (Path.plain path) = .ok config) :
    Succeeds modules tree (renderArgs file path out settings) left ↔
      (IsPlain renderOptions path ∧ ∀ setting ∈ settings, setting.IsRead renderOptions) ∧
        ∃ completed, complete tree (globalsOf settings) (.ok config) = .ok completed ∧
          tree.isFile file = true ∧ Expansion.prepare completed = .ok () ∧
          FileSucceeds completed tree file out left := by
  have hrender : SucceedsWith (fun fuel => render modules fuel tree file
      { out := some out, config := some path } (globalsOf settings)) left ↔ _ :=
    render_succeeds_iff rfl
  rw [load_out_config, hload] at hrender
  rw [succeeds_iff, renderArgs]
  simp only [parse_render_iff (isPlain_of_head hfile) (isPlain_of_head hout) hne hpath,
    Option.some.injEq]
  constructor
  · intro h
    obtain ⟨invocation, ⟨hplain, hread, hinvocation⟩, hsucceeds⟩ := h
    subst hinvocation
    exact ⟨⟨hplain, hread⟩, hrender.mp (succeedsWith_atLeast_iff.mp hsucceeds)⟩
  · intro h
    obtain ⟨⟨hplain, hread⟩, hrenders⟩ := h
    exact ⟨_, ⟨hplain, hread, rfl⟩, succeedsWith_atLeast_iff.mpr (hrender.mpr hrenders)⟩

/-- A run over a single file succeeds just if the file is processed. -/
theorem runSucceeds_iff (hclosed : tree.Closed) (hshown : config.isShowable = true)
    (hmapping : config.files = [mapping])
    (hrefused : Glob.refusesAny mapping.cwd mapping.sources = false)
    (hfile : (Glob.expandAll tree mapping.cwd mapping.sources).filter
      (fun source => tree.isFile (Runner.sourcePath mapping.cwd source)) = [file]) :
    RunSucceeds config tree left ↔
      FileSucceeds config tree (Runner.sourcePath mapping.cwd file)
        (Runner.destinationFor file mapping.dest) left := by
  unfold RunSucceeds FileSucceeds
  refine exists_congr fun fuel => ?_
  rw [Runner.ending_run_of_single hclosed hshown hmapping hrefused hfile]

/-- A configuration with a single file can be processed, or this file can be rendered. Both commands
succeed, or neither, with the same tree, if they read their arguments alike. The configuration can
only be processed if the bound on the depth has few enough digits to be shown. -/
theorem succeeds_run_iff_render (modules : List Hook.Module) (tree : Tree) (path file : Text)
    (config : Config) (mapping : FileMapping) (settings : List Setting) (hclosed : tree.Closed)
    (hload : Config.load modules tree (Path.plain path) = .ok config)
    (hdepth : (Scalar.int config.maxDepth).isShowable = true) (hfiles : config.files = [mapping])
    (hrefused : Glob.refusesAny mapping.cwd mapping.sources = false)
    (hfile : (Glob.expandAll tree mapping.cwd mapping.sources).filter
      (fun source => tree.isFile (Runner.sourcePath mapping.cwd source)) = [file])
    (hsource : (Runner.sourcePath mapping.cwd file).head? ≠ some '-')
    (hdest : (Runner.destinationFor file mapping.dest).head? ≠ some '-')
    (hmark : path ≠ ['-', '-']) (hpath : ReadAlike path)
    (hsettings : ∀ setting ∈ settings, setting.isAttached = false → ReadAlike setting.value)
    (left : Tree) :
    Succeeds modules tree (runArgs path settings) left ↔
      Succeeds modules tree (renderArgs (Runner.sourcePath mapping.cwd file) path
        (Runner.destinationFor file mapping.dest) settings) left := by
  have hisFile : tree.isFile (Runner.sourcePath mapping.cwd file) = true := by
    have hmem := List.mem_singleton_self file
    rw [← hfile] at hmem
    exact (List.mem_filter.mp hmem).2
  have hne : Runner.destinationFor file mapping.dest ≠ [] :=
    destinationFor_ne_nil
      (Config.dest_ne_nil hload (by rw [hfiles]; exact List.mem_singleton_self _)) file
  rw [succeeds_runArgs_iff hclosed hmark hload,
    succeeds_renderArgs_iff hsource hdest hne (Config.path_of_load hclosed hload).1 hload]
  refine and_congr (and_congr hpath (isRead_iff hsettings)) (exists_congr fun completed => ?_)
  refine and_congr_right fun hcompleted => ?_
  rw [and_iff_right hisFile]
  refine and_congr_right fun hprepare => ?_
  obtain ⟨globals, rfl⟩ := complete_ok hcompleted
  exact runSucceeds_iff hclosed (isShowable_of_prepare hdepth hprepare) hfiles hrefused hfile

/-- If the bound on the depth has too many digits to be shown, then no file of the configuration is
processed. -/
theorem not_succeeds_run_of_long (hclosed : tree.Closed) (hmark : path ≠ ['-', '-'])
    (hload : Config.load modules tree (Path.plain path) = .ok config)
    (hdepth : (Scalar.int config.maxDepth).isShowable = false) :
    ¬ Succeeds modules tree (runArgs path settings) left := by
  intro h
  obtain ⟨-, completed, hcompleted, -, fuel, result, hrun, hzero⟩ :=
    (succeeds_runArgs_iff hclosed hmark hload).mp h
  obtain ⟨globals, rfl⟩ := complete_ok hcompleted
  have hshown : (config.withGlobals globals).isShowable = false :=
    Bool.and_eq_false_iff.mpr (.inl hdepth)
  rw [Runner.run_of_not_isShowable hshown, Runner.ending_error] at hrun
  cases hrun
  exact absurd (hzero _ rfl) (by decide)

end

/-- A site with a page, and with a configuration under this name that prints the page. -/
def pageAndConfig (name : Text) : Tree where
  cwd := "/site"
  entries := [(["site"], .directory), (["site", "a"], .file (Encoding.encodeUtf8 "x")),
    (["site", name], .file (Encoding.encodeUtf8 "files: [{src: a, dest: b}]"))]

/-- The only mapping of the site. -/
def pageToFile : FileMapping := ⟨["a"], "b", none⟩

/-- The configuration of the site. -/
def pageOnly : Config where
  files := [pageToFile]

/-- Is this the configuration of the site? -/
def isPageOnly (config : Config) : Bool :=
  decide (config.files = [pageToFile]) && decide (config.delimiters = {}) &&
    config.globals.isEmpty && config.includesDir.isEmpty && decide (config.docroot = ".") &&
    decide (config.encoding = "utf-8") && config.useMustache && !config.alwaysUnescaped &&
    config.hook.isNone && config.expandValues && decide (config.maxDepth = 100)

theorem eq_of_isPageOnly (h : isPageOnly config = true) : config = pageOnly := by
  cases config
  simp [isPageOnly] at h
  simp [pageOnly, h]

theorem eq_ok_of_any {loaded : Except Config.LoadError Config}
    (h : loaded.toOption.any isPageOnly = true) : loaded = .ok pageOnly := by
  cases loaded with
  | error e => cases h
  | ok config => rw [eq_of_isPageOnly h]

/-- An option that binds a variable. -/
def bindingOne : Setting := ⟨false, "k=1", false⟩

/-- The configuration of the site with this variable. -/
def pageWithOne : Config := pageOnly.withGlobals [("k", .ofText "1")]

theorem readAlike_of_head {arg : Text} (h : arg.head? ≠ some '-') : ReadAlike arg :=
  iff_of_true (isPlain_of_head h) (isPlain_of_head h)

/-- The site is closed, its configuration is found, and its page can be printed. -/
structure Printable (name : Text) : Prop where
  closed : (pageAndConfig name).Closed
  load : Config.load [] (pageAndConfig name) (Path.plain name) = .ok pageOnly
  found : (Glob.expandAll (pageAndConfig name) none ["a"]).filter (pageAndConfig name).isFile =
    (["a"] : List Text)
  read : File.read (pageAndConfig name) "a" "utf-8" = .ok ("x" : Text)
  write : (File.write (pageAndConfig name) "b" "x" "utf-8").2 = .ok ()

theorem printable_c : Printable "c" where
  closed := by decide
  load := eq_ok_of_any (by decide +kernel)
  found := by decide +kernel
  read := by decide
  write := by decide

/-- The page is printed by the command that processes the configuration, if it reads the name. -/
theorem Printable.succeeds {name : Text} (h : Printable name) (hmark : name ≠ ['-', '-'])
    (hplain : IsPlain runOptions name) :
    ∃ left, Succeeds [] (pageAndConfig name) (runArgs name [bindingOne]) left ∧
      File.readBytes left "b" = .ok (Encoding.encodeUtf8 "x") := by
  obtain ⟨left, hwrite⟩ :
      ∃ left, File.write (pageAndConfig name) "b" "x" "utf-8" = (left, .ok ()) :=
    ⟨_, Prod.ext rfl h.write⟩
  have hopener : ¬ ({} : Delimiters).opener <:+: ("x" : Text) := by decide
  have htag : ¬ Mustache.standardDelimiters.opener <:+: ("x" : Text) := by decide
  have hleaves :
    Runner.Leaves (Runner.processFile pageWithOne 2 (.new (pageAndConfig name)) "a" "b")
      left [("a", "b")] :=
    Runner.leaves_processFile_iff.mpr
      ⟨⟨"x", [], "x", h.read, Expansion.expandDocument_inert hopener htag 1, hwrite⟩, rfl⟩
  obtain ⟨next, text, hprocess, htree, -⟩ := hleaves
  have hfile : FileSucceeds pageWithOne (pageAndConfig name) "a" "b" left := by
    refine ⟨2, .ok (), ?_, nofun⟩
    rw [hprocess, Runner.ending_ok, htree]
  have hprepare : Expansion.prepare pageWithOne = .ok () := rfl
  have hshown : pageWithOne.isShowable = true := isShowable_of_prepare (by decide) hprepare
  have hread : ∀ setting ∈ [bindingOne], setting.IsRead runOptions := by
    intro setting hsetting _
    rw [List.mem_singleton.mp hsetting]
    exact isPlain_of_head (by decide)
  refine ⟨left, (succeeds_runArgs_iff h.closed hmark h.load).mpr ⟨⟨hplain, hread⟩, ?_⟩, ?_⟩
  · exact ⟨pageWithOne, rfl, hprepare,
      (runSucceeds_iff h.closed hshown rfl (by decide) h.found).mpr hfile⟩
  · obtain ⟨bytes, hbytes, hwrote⟩ := File.wrote_of_write h.closed hwrite
    cases hbytes
    exact hwrote.readBytes

/-- The page is printed by both commands. -/
theorem succeeds_pageToFile :
    ∃ left, Succeeds [] (pageAndConfig "c") (runArgs "c" [bindingOne]) left ∧
      Succeeds [] (pageAndConfig "c") (renderArgs "a" "c" "b" [bindingOne]) left ∧
      File.readBytes left "b" = .ok (Encoding.encodeUtf8 "x") := by
  obtain ⟨left, hrun, hread⟩ := printable_c.succeeds (by decide) (isPlain_of_head (by decide))
  have hsettings : ∀ setting ∈ [bindingOne], setting.isAttached = false →
      ReadAlike setting.value := by
    intro setting hsetting _
    rw [List.mem_singleton.mp hsetting]
    exact readAlike_of_head (by decide)
  have hagree :=
    succeeds_run_iff_render [] (pageAndConfig "c") "c" "a" pageOnly pageToFile [bindingOne]
      printable_c.closed printable_c.load (by decide) rfl (by decide) printable_c.found
      (by decide) (by decide) (by decide) (readAlike_of_head (by decide)) hsettings left
  exact ⟨left, hrun, hagree.mp hrun, hread⟩

/-- A name that one command takes for a plain argument, and the other for an option. -/
def oddName : Text := "--prefix=a b"

theorem printable_oddName : Printable oddName where
  closed := by decide
  load := eq_ok_of_any (by decide +kernel)
  found := by decide +kernel
  read := by decide
  write := by decide

/-- If the configuration has such a name, then its page is printed by one command only. -/
theorem succeeds_oddName :
    (pageAndConfig oddName).Closed ∧
      Config.load [] (pageAndConfig oddName) (Path.plain oddName) = .ok pageOnly ∧
      (Glob.expandAll (pageAndConfig oddName) none ["a"]).filter (pageAndConfig oddName).isFile =
        ["a"] ∧
      (∃ left, Succeeds [] (pageAndConfig oddName) (runArgs oddName [bindingOne]) left) ∧
      ∀ left, ¬ Succeeds [] (pageAndConfig oddName)
        (renderArgs "a" oddName "b" [bindingOne]) left := by
  have hrun : IsPlain runOptions oddName := ⟨by decide, by decide⟩
  have hrender : ¬ IsPlain renderOptions oddName := by
    intro h
    exact absurd h.2 (by decide)
  obtain ⟨left, hsucceeds, -⟩ := printable_oddName.succeeds (by decide) hrun
  refine ⟨printable_oddName.closed, printable_oddName.load, printable_oddName.found,
    ⟨left, hsucceeds⟩, ?_⟩
  intro other hother
  exact hrender ((succeeds_renderArgs_iff (by decide) (by decide) (by decide) (by decide)
    printable_oddName.load).mp hother).1.1

end Splice.CommandLine
