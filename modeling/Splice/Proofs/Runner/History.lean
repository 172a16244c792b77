import Splice.Runner

/-!
# Runners with a past

A runner keeps the warnings about includes of all that it has done. A run takes from them what has
been added since it began, so that what a runner did before makes no difference to it.

* `Runner.Alike` — runners that differ in their reports, and in older warnings about includes;
* `Runner.processMappings_alike` — alike runners have the same outcomes, and stay alike;
* `Runner.Event`, `Runner.replay` — what may have happened to a runner; and
* `Runner.outcome_after_replay` — a runner with a past does what a new one does on the same tree.
-/

namespace Splice.Runner

/-- The new runner on a tree. -/
def new (tree : Tree) : Runner := { tree }

/-! ### Outcomes -/

/-- What a step does to the tree, and its result. -/
def effect {α : Type} (step : Step α) : Option (Tree × Except Failure α) :=
  step.map fun (runner, result) => (runner.tree, result)

theorem effect_eq_some_iff {α : Type} {step : Step α} {tree : Tree} {result : Except Failure α} :
    effect step = some (tree, result) ↔ ∃ left, step = some (left, result) ∧ left.tree = tree := by
  rw [effect, Option.map_eq_some_iff]
  constructor
  · rintro ⟨⟨left, result'⟩, hstep, heq⟩
    cases heq
    exact ⟨left, hstep, rfl⟩
  · rintro ⟨left, hstep, rfl⟩
    exact ⟨(left, result), hstep, rfl⟩

/-- What can be seen of a step: the tree and the record that it leaves, and its result. -/
def outcome {α : Type} (step : Step α) : Option (Tree × Record × Except Failure α) :=
  step.map fun (left, result) => (left.tree, left.record, result)

/-! ### Alike runners -/

/-- The runners have the same tree and the same record, and the warnings about includes of the first
are those of the second behind some older ones. -/
structure Alike (older : List Warning) (runner other : Runner) : Prop where
  tree : runner.tree = other.tree
  record : runner.record = other.record
  includeWarnings : runner.includeWarnings = older ++ other.includeWarnings

/-- The fuel suffices for neither step, or both have the same result and leave alike runners. -/
def AlikeSteps {α : Type} (older : List Warning) (step step' : Step α) : Prop :=
  (step = none ∧ step' = none) ∨
    ∃ left left' result, step = some (left, result) ∧ step' = some (left', result) ∧
      Alike older left left'

variable {older : List Warning} {runner other : Runner}

theorem Alike.report (h : Alike older runner other) (severity : Severity) (message : Text) :
    Alike older (runner.report severity message) (other.report severity message) :=
  ⟨h.tree, h.record, h.includeWarnings⟩

theorem Alike.warn (h : Alike older runner other) (warning : Warning) :
    Alike older (runner.warn warning) (other.warn warning) := by
  refine ⟨h.tree, ?_, h.includeWarnings⟩
  simp only [Runner.warn, h.record]

theorem Alike.noteIncludes (h : Alike older runner other) (warnings : List Warning) :
    Alike older (runner.noteIncludes warnings) (other.noteIncludes warnings) := by
  refine ⟨h.tree, h.record, ?_⟩
  simp only [Runner.noteIncludes, h.includeWarnings, List.append_assoc]

theorem checkPatterns_alike (h : Alike older runner other) (cwd : Option Text)
    (patterns : List Text) :
    Alike older (checkPatterns cwd runner patterns) (checkPatterns cwd other patterns) := by
  induction patterns generalizing runner other with
  | nil => exact h
  | cons pattern patterns ih =>
    simp only [checkPatterns, h.tree]
    split
    · exact ih h
    · split
      · exact h
      · apply ih
        split
        · exact h.warn (.sourceNotFound pattern)
        · exact h

section

variable [Codecs]

/-! ### Expanding without writing -/

/-- Expands a document that is read from `file`, and keeps the warnings. -/
def expand (config : Config) (fuel : Nat) (runner : Runner) (document file : Text) : Step Text :=
  match Expansion.expandDocument config runner.tree fuel document file with
  | none => none
  | some (warnings, result) => some (runner.noteIncludes warnings, result)

variable {config : Config} {fuel : Nat}

/-- A file is read, expanded and written. -/
theorem processFile_eq_expand (runner : Runner) (source dest : Text) :
    processFile config fuel runner source dest =
      match File.read runner.tree source config.encoding with
      | .error e => some (runner.report .info ("Processing " ++ source), .error (.file e))
      | .ok contents =>
          match expand config fuel (runner.report .info ("Processing " ++ source))
            contents source with
          | none => none
          | some (left, .error failure) => some (left, .error failure)
          | some (left, .ok text) => some (writeOutput config left source dest text) := by
  have htree : (runner.report .info ("Processing " ++ source)).tree = runner.tree := rfl
  unfold processFile expand
  simp only [htree]
  cases File.read runner.tree source config.encoding with
  | error e => rfl
  | ok contents =>
    simp only
    rcases Expansion.expandDocument config runner.tree fuel contents source with
      _ | ⟨warnings, failure | text⟩
    · rfl
    · rfl
    · rfl

/-! ### Alike steps -/

theorem expand_alike (h : Alike older runner other) (document file : Text) :
    AlikeSteps older (expand config fuel runner document file)
      (expand config fuel other document file) := by
  unfold expand
  rw [h.tree]
  split
  · exact .inl ⟨rfl, rfl⟩
  · rename_i warnings result _
    exact .inr ⟨_, _, result, rfl, rfl, h.noteIncludes warnings⟩

theorem writeOutput_alike (h : Alike older runner other) (source dest text : Text) :
    AlikeSteps older (some (writeOutput config runner source dest text))
      (some (writeOutput config other source dest text)) := by
  unfold writeOutput
  rw [h.tree]
  split
  · exact .inr ⟨_, _, _, rfl, rfl, rfl, h.record, h.includeWarnings⟩
  · refine .inr ⟨_, _, _, rfl, rfl, rfl, ?_, h.includeWarnings⟩
    simp only [Runner.report, h.record]

theorem processFile_alike (h : Alike older runner other) (source dest : Text) :
    AlikeSteps older (processFile config fuel runner source dest)
      (processFile config fuel other source dest) := by
  have hreported := h.report .info ("Processing " ++ source)
  rw [processFile_eq_expand, processFile_eq_expand, h.tree]
  split
  · exact .inr ⟨_, _, _, rfl, rfl, hreported⟩
  · rename_i contents _
    rcases expand_alike hreported contents source with
      ⟨hstep, hstep'⟩ | ⟨left, left', result, hstep, hstep', hleft⟩
    · rw [hstep, hstep']
      exact .inl ⟨rfl, rfl⟩
    · rw [hstep, hstep']
      cases result with
      | error failure => exact .inr ⟨left, left', _, rfl, rfl, hleft⟩
      | ok text => exact writeOutput_alike hleft source dest text

/-! ### Alike runs -/

theorem processSources_alike (h : Alike older runner other) (mapping : FileMapping)
    (sources : List Text) :
    AlikeSteps older (processSources config fuel mapping sources runner)
      (processSources config fuel mapping sources other) := by
  induction sources generalizing runner other with
  | nil => exact .inr ⟨runner, other, _, rfl, rfl, h⟩
  | cons source sources ih =>
    simp only [processSources, h.tree]
    split
    · -- A file that fails ends both runs; behind one that succeeds they go on alike.
      rcases processFile_alike h (sourcePath mapping.cwd source)
          (destinationFor source mapping.dest) with
        ⟨hstep, hstep'⟩ | ⟨left, left', result, hstep, hstep', hleft⟩
      · rw [hstep, hstep']
        exact .inl ⟨rfl, rfl⟩
      · rw [hstep, hstep']
        cases result with
        | error failure => exact .inr ⟨left, left', _, rfl, rfl, hleft⟩
        | ok text => exact ih hleft
    · exact ih (h.warn (.notAFile (sourcePath mapping.cwd source)))

theorem processMapping_alike (h : Alike older runner other) (mapping : FileMapping) :
    AlikeSteps older (processMapping config fuel mapping runner)
      (processMapping config fuel mapping other) := by
  have hchecked := checkPatterns_alike h mapping.cwd mapping.sources
  simp only [processMapping, hchecked.tree]
  split
  · exact .inr ⟨_, _, _, rfl, rfl, hchecked⟩
  · exact processSources_alike hchecked mapping _

theorem processMappings_alike (h : Alike older runner other) (mappings : List FileMapping) :
    AlikeSteps older (processMappings config fuel mappings runner)
      (processMappings config fuel mappings other) := by
  induction mappings generalizing runner other with
  | nil => exact .inr ⟨runner, other, _, rfl, rfl, h⟩
  | cons mapping mappings ih =>
    rw [processMappings, processMappings]
    rcases processMapping_alike h mapping with
      ⟨hstep, hstep'⟩ | ⟨left, left', result, hstep, hstep', hleft⟩
    · rw [hstep, hstep']
      exact .inl ⟨rfl, rfl⟩
    · rw [hstep, hstep']
      cases result with
      | error failure => exact .inr ⟨left, left', _, rfl, rfl, hleft⟩
      | ok _ => exact ih hleft

/-- A configuration that cannot be shown fails before the run begins its record. -/
theorem run_of_not_isShowable (h : config.isShowable = false) (runner : Runner) :
    run config fuel runner = some (runner, .error .unshowable) := by
  rw [run, h]
  rfl

theorem run_of_isShowable (h : config.isShowable = true) (runner : Runner) :
    run config fuel runner =
      match processMappings config fuel config.files runner.fresh with
      | none => none
      | some (left, .error failure) => some (left, .error failure)
      | some (left, .ok ()) =>
          some (left.finish runner.includeWarnings.length,
            .ok (left.finish runner.includeWarnings.length).record) := by
  rw [run, h]
  rfl

/-- The outcome of a run depends on the tree only. -/
theorem outcome_run (h : config.isShowable = true) (runner : Runner) :
    outcome (run config fuel runner) = outcome (run config fuel (new runner.tree)) := by
  have hfresh : Alike runner.includeWarnings runner.fresh (new runner.tree).fresh :=
    ⟨rfl, rfl, (List.append_nil runner.includeWarnings).symm⟩
  rw [run_of_isShowable h, run_of_isShowable h]
  rcases processMappings_alike hfresh config.files with
    ⟨hstep, hstep'⟩ | ⟨left, left', result, hstep, hstep', hleft⟩
  · rw [hstep, hstep']
  · rw [hstep, hstep']
    cases result with
    | error failure => simp only [outcome, Option.map_some, hleft.tree, hleft.record]
    | ok _ =>
      -- The warnings of the run are those behind the older ones.
      have hadded : left.includeWarnings.drop runner.includeWarnings.length =
          left'.includeWarnings.drop (new runner.tree).includeWarnings.length := by
        rw [hleft.includeWarnings, List.drop_left]
        rfl
      simp only [outcome, Option.map_some, finish, hleft.tree, hleft.record, hadded]

/-- What a run does depends on the tree only, also if the options cannot be shown. -/
theorem effect_run (config : Config) (fuel : Nat) (runner : Runner) :
    effect (run config fuel runner) = effect (run config fuel (new runner.tree)) := by
  cases hshown : config.isShowable with
  | false =>
    rw [run_of_not_isShowable hshown, run_of_not_isShowable hshown]
    rfl
  | true =>
    have heffect {α : Type} (step : Step α) :
        effect step = (outcome step).map fun (tree, _, result) => (tree, result) := by
      simp [effect, outcome, Function.comp_def]
    rw [heffect, heffect, outcome_run hshown]

/-- The warnings about includes that a step adds to those of a runner, and its result. -/
def added {α : Type} (runner : Runner) (step : Step α) : Option (List Warning × Except Failure α) :=
  step.map fun (left, result) =>
    (left.includeWarnings.drop runner.includeWarnings.length, result)

theorem added_expand (config : Config) (fuel : Nat) (runner : Runner) (document file : Text) :
    added runner (expand config fuel runner document file) =
      Expansion.expandDocument config runner.tree fuel document file := by
  unfold expand
  cases Expansion.expandDocument config runner.tree fuel document file with
  | none => rfl
  | some expanded => simp [added, noteIncludes]

/-! ### Histories -/

/-- What may happen to a runner. -/
inductive Event where
  /-- All files of the configuration are processed. -/
  | run
  /-- A single file is processed. -/
  | file (source dest : Text)
  /-- A document is expanded and not written. -/
  | document (text file : Text)
  /-- The tree is changed from outside. -/
  | outside (tree : Tree)

/-- The runner after an event, which may have failed; none if the fuel did not suffice. -/
def handle (config : Config) (fuel : Nat) (runner : Runner) : Event → Option Runner
  | .run => (run config fuel runner).map Prod.fst
  | .file source dest => (processFile config fuel runner source dest).map Prod.fst
  | .document text file => (expand config fuel runner text file).map Prod.fst
  | .outside tree => some { runner with tree }

/-- A new runner after events, one after the other. -/
def replay (config : Config) (fuel : Nat) (tree : Tree) (events : List Event) : Option Runner :=
  events.foldlM (handle config fuel) (new tree)

theorem replay_concat {before : Nat} {start : Tree} {events : List Event} {runner : Runner}
    (h : replay config before start events = some runner) (event : Event) :
    replay config before start (events ++ [event]) = handle config before runner event := by
  rw [replay] at h ⊢
  rw [List.foldlM_append, h]
  show (handle config before runner event).bind some = handle config before runner event
  rw [Option.bind_fun_some]

/-- After any events a run has the outcome of a new runner on the tree that is there: it leaves the
same tree, and a record of the same files and warnings, and has the same result. Only if the options
cannot be shown it makes no record, and an older one stays. The expansion of a document has the same
result too, and adds the same warnings. -/
theorem outcome_after_replay (config : Config) (before fuel : Nat) (start : Tree)
    (events : List Event) :
    ∀ runner, replay config before start events = some runner →
      effect (run config fuel runner) = effect (run config fuel (new runner.tree)) ∧
        (config.isShowable = true →
          outcome (run config fuel runner) = outcome (run config fuel (new runner.tree))) ∧
        ∀ document file, added runner (expand config fuel runner document file) =
          added (new runner.tree) (expand config fuel (new runner.tree) document file) := by
  intro runner _
  refine ⟨effect_run config fuel runner, fun h => outcome_run h runner, ?_⟩
  intro document file
  rw [added_expand, added_expand]
  rfl

end

/-- A site of two pages, of which the first one includes a file that is not there. -/
def gappedSite (second : Text) : Tree where
  cwd := "/site"
  entries := [(["site"], .directory),
    (["site", "a"], .file (Encoding.encodeUtf8 "@@include(\"x\")")),
    (["site", "b"], .file (Encoding.encodeUtf8 second))]

/-- A configuration that prints the pages into a directory. -/
def gappedPages : Config where
  files := [⟨["a", "b"], "out/", none⟩]

/-- The second page, with variables that cannot be read. -/
def unreadable : Text := "@@include(\"a\", {x})"

/-- A page is processed alone, and then the second one stops a run; only after that is it mended. By
now there are two older warnings, and the next run reports its own. -/
theorem outcome_after_mending :
    ∃ runner,
      replay gappedPages 3 (gappedSite unreadable) [.file "a" "c", .run,
        .outside (gappedSite "b")] =
          some runner ∧
        runner.includeWarnings = [.includeNotFound "/site/x", .includeNotFound "/site/x"] ∧
        (outcome (run gappedPages 3 runner)).map (fun (_, record, _) => record) =
          some ⟨[("a", "out/a"), ("b", "out/b")], [.includeNotFound "/site/x"]⟩ := by
  have hpast : (replay gappedPages 3 (gappedSite unreadable) [.file "a" "c", .run]).map
      (fun runner => runner.includeWarnings) =
        some [.includeNotFound "/site/x", .includeNotFound "/site/x"] := by
    decide +kernel
  obtain ⟨stopped, hstopped, hwarnings⟩ := Option.map_eq_some_iff.mp hpast
  have hmended := replay_concat hstopped (.outside (gappedSite "b"))
  refine ⟨_, hmended, hwarnings, ?_⟩
  rw [(outcome_after_replay _ _ 3 _ _ _ hmended).2.1 (by decide)]
  show (outcome (run gappedPages 3 (new (gappedSite "b")))).map (fun (_, record, _) => record) = _
  decide +kernel

end Splice.Runner
