import Splice.Proofs.Expansion.Remembering
import Splice.Proofs.Runner.History

/-!
# Runners with a resolver

A runner makes one resolver when it is made itself, and all of its documents are expanded with this
one, those of a run that fails included. What the resolver keeps makes no difference: whatever
happens to the runner, each of its documents comes out as if it had a resolver of its own.

* `Runner.Remembering.run`, `Runner.Remembering.replay` — runs and histories with a resolver;
* `Runner.run_follows`, `Runner.replay_follows` — they do what those without a resolver do; and
* `Runner.run_after_replay` — a run after any events needs nothing from the resolver.
-/

namespace Splice.Runner

open Expansion (Follows Serves resolverOf)
open Placeholder (Resolver)

variable {α β : Type}

/-! ### Steps with a resolver -/

/-- Goes on after a step that has succeeded. -/
def onward (step : Step α) (next : Runner → α → Step β) : Step β :=
  step.bind fun
    | (runner, .error failure) => some (runner, .error failure)
    | (runner, .ok a) => next runner a

/-- A computation that uses a resolver and leaves it behind. -/
abbrev Remembering (α : Type) := StateT Resolver Option α

namespace Remembering

/-- Goes on after a step that has succeeded. -/
def onward (step : Remembering (Runner × Except Failure α))
    (next : Runner → α → Remembering (Runner × Except Failure β)) :
    Remembering (Runner × Except Failure β) := do
  match ← step with
  | (runner, .error failure) => return (runner, .error failure)
  | (runner, .ok a) => next runner a

variable [Codecs]

/-- Expands a document that is read from `file`, and keeps the warnings. -/
def expand (config : Config) (fuel : Nat) (runner : Runner) (document file : Text) :
    Remembering (Runner × Except Failure Text) := do
  let (warnings, result) ←
    Expansion.Remembering.expandDocument config runner.tree fuel document file
  return (runner.noteIncludes warnings, result)

/-- Expands one source and writes it (`process_file`). -/
def processFile (config : Config) (fuel : Nat) (runner : Runner) (source dest : Text) :
    Remembering (Runner × Except Failure Text) :=
  let runner := runner.report .info ("Processing " ++ source)
  match File.read runner.tree source config.encoding with
  | .error e => return (runner, .error (.file e))
  | .ok document =>
      onward (expand config fuel runner document source) fun runner text =>
        return writeOutput config runner source dest text

/-- Processes the sources of a mapping that are files and warns of the others. -/
def processSources (config : Config) (fuel : Nat) (mapping : FileMapping) :
    (sources : List Text) → Runner → Remembering (Runner × Except Failure Unit)
  | [], runner => return (runner, .ok ())
  | source :: sources, runner =>
      let path := sourcePath mapping.cwd source
      if runner.tree.isFile path then
        onward (processFile config fuel runner path (destinationFor source mapping.dest))
          fun runner _ => processSources config fuel mapping sources runner
      else processSources config fuel mapping sources (runner.warn (.notAFile path))

/-- Processes a mapping (`_process_mapping`). -/
def processMapping (config : Config) (fuel : Nat) (mapping : FileMapping) (runner : Runner) :
    Remembering (Runner × Except Failure Unit) :=
  let runner := checkPatterns mapping.cwd runner mapping.sources
  if Glob.refusesAny mapping.cwd mapping.sources then return (runner, .error (.file .nullInPath))
  else
    let sources := Glob.expandAll runner.tree mapping.cwd mapping.sources
    processSources config fuel mapping sources runner

/-- Processes mappings one after the other. -/
def processMappings (config : Config) (fuel : Nat) :
    List FileMapping → Runner → Remembering (Runner × Except Failure Unit)
  | [], runner => return (runner, .ok ())
  | mapping :: mappings, runner =>
      onward (processMapping config fuel mapping runner) fun runner _ =>
        processMappings config fuel mappings runner

/-- Processes all files of a configuration (`run`). -/
def run (config : Config) (fuel : Nat) (runner : Runner) :
    Remembering (Runner × Except Failure Record) :=
  if !config.isShowable then return (runner, .error .unshowable)
  else
    onward (processMappings config fuel config.files runner.fresh) fun left _ =>
      let done := left.finish runner.includeWarnings.length
      return (done, .ok done.record)

/-- The runner after an event, which may have failed. -/
def handle (config : Config) (fuel : Nat) (runner : Runner) :
    Event → Remembering Runner
  | .run => Prod.fst <$> run config fuel runner
  | .file source dest => Prod.fst <$> processFile config fuel runner source dest
  | .document text file => Prod.fst <$> expand config fuel runner text file
  | .outside tree => return { runner with tree }

/-- A new runner after events, one after the other. -/
def replay (config : Config) (fuel : Nat) (tree : Tree) (events : List Event) :
    Remembering Runner :=
  events.foldlM (handle config fuel) (new tree)

end Remembering

/-! ### Each step does what it does without a resolver -/

section

variable {config : Config}

theorem follows_pure (a : α) : Follows config (pure a : Remembering α) (some a) :=
  fun resolver h => ⟨resolver, h, rfl⟩

theorem follows_bind {x : Remembering α} {y : Option α}
    {f : α → Remembering β} {g : α → Option β} (hx : Follows config x y)
    (hf : ∀ a, Follows config (f a) (g a)) : Follows config (x >>= f) (y.bind g) := by
  intro resolver h
  obtain ⟨between, hbetween, hfirst⟩ := hx resolver h
  have hstep : (x >>= f) resolver = (x resolver).bind fun (a, resolver) => f a resolver := rfl
  rw [hstep, hfirst]
  cases y with
  | none => exact ⟨between, hbetween, rfl⟩
  | some a => exact hf a between hbetween

theorem follows_map {x : Remembering α} {y : Option α} (hx : Follows config x y)
    (f : α → β) : Follows config (f <$> x) (y.map f) := by
  have hbind : Follows config (x >>= fun a => pure (f a)) (y.bind fun a => some (f a)) :=
    follows_bind hx fun a => follows_pure (f a)
  rw [Option.map_eq_bind]
  exact hbind

theorem follows_onward {x : Remembering (Runner × Except Failure α)} {y : Step α}
    {f : Runner → α → Remembering (Runner × Except Failure β)} {g : Runner → α → Step β}
    (hx : Follows config x y) (hf : ∀ runner a, Follows config (f runner a) (g runner a)) :
    Follows config (Remembering.onward x f) (onward y g) := by
  refine follows_bind hx fun outcome => ?_
  obtain ⟨runner, failure | a⟩ := outcome
  · exact follows_pure _
  · exact hf runner a

end

variable [Codecs]
variable {config : Config} {fuel : Nat} {runner : Runner}

theorem expand_follows (runner : Runner) (document file : Text) :
    Follows config (Remembering.expand config fuel runner document file)
      (expand config fuel runner document file) := by
  have hbind : expand config fuel runner document file =
      (Expansion.expandDocument config runner.tree fuel document file).bind
        fun (warnings, result) => some (runner.noteIncludes warnings, result) := by
    unfold expand
    cases Expansion.expandDocument config runner.tree fuel document file <;> rfl
  rw [hbind]
  exact follows_bind (Expansion.expandDocument_follows document file) fun _ => follows_pure _

theorem processFile_of_read {source document : Text} (runner : Runner) (dest : Text)
    (hread : File.read runner.tree source config.encoding = .ok document) :
    processFile config fuel runner source dest =
      onward (expand config fuel (runner.report .info ("Processing " ++ source)) document source)
        fun runner text => some (writeOutput config runner source dest text) := by
  rw [processFile_eq_expand, hread]
  simp only
  rcases expand config fuel _ document source with _ | ⟨next, failure | text⟩ <;> rfl

theorem processFile_follows (runner : Runner) (source dest : Text) :
    Follows config (Remembering.processFile config fuel runner source dest)
      (processFile config fuel runner source dest) := by
  unfold Remembering.processFile
  have htree : (runner.report .info ("Processing " ++ source)).tree = runner.tree := rfl
  simp only [htree]
  cases hread : File.read runner.tree source config.encoding with
  | error e =>
    rw [processFile_eq_expand, hread]
    exact follows_pure _
  | ok document =>
    rw [processFile_of_read runner dest hread]
    exact follows_onward (expand_follows _ document source) fun _ _ => follows_pure _

theorem processSources_cons (mapping : FileMapping) (source : Text) (sources : List Text)
    (runner : Runner) :
    processSources config fuel mapping (source :: sources) runner =
      if runner.tree.isFile (sourcePath mapping.cwd source) then
        onward (processFile config fuel runner (sourcePath mapping.cwd source)
            (destinationFor source mapping.dest)) fun runner _ =>
          processSources config fuel mapping sources runner
      else
        processSources config fuel mapping sources
          (runner.warn (.notAFile (sourcePath mapping.cwd source))) := by
  rw [processSources]
  rcases processFile config fuel runner _ _ with _ | ⟨next, failure | text⟩ <;> rfl

theorem processSources_follows (mapping : FileMapping) (sources : List Text) (runner : Runner) :
    Follows config (Remembering.processSources config fuel mapping sources runner)
      (processSources config fuel mapping sources runner) := by
  induction sources generalizing runner with
  | nil => exact follows_pure _
  | cons source sources ih =>
    rw [processSources_cons, Remembering.processSources]
    split
    · exact follows_onward (processFile_follows runner _ _) fun next _ => ih next
    · exact ih (runner.warn (.notAFile (sourcePath mapping.cwd source)))

theorem processMapping_follows (mapping : FileMapping) (runner : Runner) :
    Follows config (Remembering.processMapping config fuel mapping runner)
      (processMapping config fuel mapping runner) := by
  unfold Remembering.processMapping processMapping
  simp only
  split
  · exact follows_pure _
  · exact processSources_follows mapping _ _

theorem processMappings_cons (mapping : FileMapping) (mappings : List FileMapping)
    (runner : Runner) :
    processMappings config fuel (mapping :: mappings) runner =
      onward (processMapping config fuel mapping runner) fun runner _ =>
        processMappings config fuel mappings runner := by
  rw [processMappings]
  rcases processMapping config fuel mapping runner with _ | ⟨next, failure | done⟩ <;> rfl

theorem processMappings_follows (mappings : List FileMapping) (runner : Runner) :
    Follows config (Remembering.processMappings config fuel mappings runner)
      (processMappings config fuel mappings runner) := by
  induction mappings generalizing runner with
  | nil => exact follows_pure _
  | cons mapping mappings ih =>
    rw [processMappings_cons, Remembering.processMappings]
    exact follows_onward (processMapping_follows mapping runner) fun next _ => ih next

/-! ### Runs and histories -/

/-- A run with the resolver of the runner does what it does without. -/
theorem run_follows (config : Config) (fuel : Nat) (runner : Runner) :
    Follows config (Remembering.run config fuel runner) (run config fuel runner) := by
  have hrun : run config fuel runner =
      if !config.isShowable then some (runner, .error .unshowable)
      else
        onward (processMappings config fuel config.files runner.fresh) fun left _ =>
          let done := left.finish runner.includeWarnings.length
          some (done, .ok done.record) := by
    unfold run
    rcases processMappings config fuel config.files _ with _ | ⟨left, failure | done⟩ <;> rfl
  rw [hrun, Remembering.run]
  split
  · exact follows_pure _
  · exact follows_onward (processMappings_follows config.files runner.fresh)
      fun _ _ => follows_pure _

theorem handle_follows (config : Config) (fuel : Nat) (runner : Runner) (event : Event) :
    Follows config (Remembering.handle config fuel runner event)
      (handle config fuel runner event) := by
  cases event with
  | run => exact follows_map (run_follows config fuel runner) Prod.fst
  | file source dest => exact follows_map (processFile_follows runner source dest) Prod.fst
  | document text file => exact follows_map (expand_follows runner text file) Prod.fst
  | outside tree => exact follows_pure _

theorem foldlM_handle_follows (events : List Event) (runner : Runner) :
    Follows config (events.foldlM (Remembering.handle config fuel) runner)
      (events.foldlM (handle config fuel) runner) := by
  induction events generalizing runner with
  | nil => exact follows_pure _
  | cons event events ih =>
    rw [List.foldlM_cons, List.foldlM_cons]
    exact follows_bind (handle_follows config fuel runner event) ih

/-- Whatever happens to a runner, its resolver makes no difference. -/
theorem replay_follows (config : Config) (fuel : Nat) (tree : Tree) (events : List Event) :
    Follows config (Remembering.replay config fuel tree events)
      (replay config fuel tree events) :=
  foldlM_handle_follows events (new tree)

/-- After any events a runner has a resolver with which a run does what it does without one. -/
theorem run_after_replay (hprepare : Expansion.prepare config = .ok ()) (before : Nat)
    (start : Tree) (events : List Event)
    (hreplay : replay config before start events = some runner) :
    ∃ resolver kept, resolverOf config = some resolver ∧
      Remembering.replay config before start events resolver = some (runner, kept) ∧
      ∃ next, Remembering.run config fuel runner kept =
        (run config fuel runner).map fun outcome => (outcome, next) := by
  obtain ⟨resolver, hresolver, hserves⟩ := Expansion.serves_of_prepare hprepare
  obtain ⟨kept, hkept, hpast⟩ := replay_follows config before start events resolver hserves
  obtain ⟨next, -, hrun⟩ := run_follows config fuel runner kept hkept
  rw [hreplay] at hpast
  exact ⟨resolver, kept, hresolver, hpast, next, hrun⟩

end Splice.Runner
