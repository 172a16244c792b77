import Mathlib.Control.Monad.Basic
import Splice.CommandLine.Session
import Splice.Proofs.Runner.Single

/-!
# How calls end

A call whose arguments make sense ends with an exit code of at most 2 if no error occurs, or if its
command deals with the one that occurs. The command that processes a configuration deals with all
errors; the one that renders a file lets those through that were not expected. Only an error of a
hook may bring a greater code with it, or be none that is dealt with at all.

* `CommandLine.Command.DealsWith`, `CommandLine.Error.ending` — how a command ends with an error;
* `CommandLine.RunFails`, `CommandLine.RenderFails` — the errors with which the commands fail;
* `CommandLine.EndsBy` — what a command ends with is settled by the errors with which it fails; and
* `CommandLine.execute_returns_iff` — the calls that end with such a code.
-/

namespace Splice.CommandLine

open Expansion (Ends)

variable {modules : List Hook.Module} {tree : Tree} {session : Session} {error : Error}
  {command : Command}

/-! ### Errors -/

/-- Does the command report errors that are treated so? -/
def Command.DealsWith (command : Command) (treatment : Treatment) : Prop :=
  match command with
  | .run _ _ => treatment ≠ .leaving
  | .render _ _ => treatment ≠ .unexpected ∧ treatment ≠ .leaving

instance (command : Command) (treatment : Treatment) : Decidable (command.DealsWith treatment) :=
  match command with
  | .run _ _ => inferInstanceAs (Decidable (treatment ≠ .leaving))
  | .render _ _ => inferInstanceAs (Decidable (treatment ≠ .unexpected ∧ treatment ≠ .leaving))

/-- How a command ends with an error. -/
def Error.ending (command : Command) (error : Error) : Exit :=
  if command.DealsWith error.treatment then .returned error.treatment.code else .escaped error

theorem exit_fail (session : Session) (error : Error) (path : Text) (dryRun : Bool) :
    (session.fail error).exit = error.ending (.run path dryRun) := by
  unfold Session.fail Error.ending
  by_cases hleaving : error.treatment = .leaving
  · have hdeals : ¬ (Command.run path dryRun).DealsWith error.treatment :=
      fun hdeals => hdeals hleaving
    rw [if_pos hleaving, if_neg hdeals]
    rfl
  · have hdeals : (Command.run path dryRun).DealsWith error.treatment := hleaving
    rw [if_neg hleaving, if_pos hdeals]
    rfl

theorem exit_failExpected (session : Session) (error : Error) (file : Text)
    (options : RenderOptions) :
    (session.failExpected error).exit = error.ending (.render file options) := by
  unfold Session.failExpected Error.ending
  by_cases hescapes : error.treatment = .unexpected ∨ error.treatment = .leaving
  · have hdeals : ¬ (Command.render file options).DealsWith error.treatment :=
      fun hdeals => hescapes.elim hdeals.1 hdeals.2
    rw [if_pos hescapes, if_neg hdeals]
    rfl
  · have hdeals : (Command.render file options).DealsWith error.treatment := not_or.mp hescapes
    rw [if_neg hescapes, if_pos hdeals]
    rfl

theorem tree_fail (session : Session) (error : Error) :
    (session.fail error).tree = session.tree := by
  unfold Session.fail
  split <;> rfl

theorem tree_failExpected (session : Session) (error : Error) :
    (session.failExpected error).tree = session.tree := by
  unfold Session.failExpected
  split <;> rfl

/-- The tree that a session leaves, and how it ends. -/
def Session.final (session : Session) : Tree × Exit := (session.tree, session.exit)

theorem final_fail (session : Session) (error : Error) (path : Text) (dryRun : Bool) :
    (session.fail error).final = (session.tree, error.ending (.run path dryRun)) :=
  Prod.ext (tree_fail session error) (exit_fail session error path dryRun)

theorem final_failExpected (session : Session) (error : Error) (file : Text)
    (options : RenderOptions) :
    (session.failExpected error).final = (session.tree, error.ending (.render file options)) :=
  Prod.ext (tree_failExpected session error) (exit_failExpected session error file options)

/-- How a command ends with this result. -/
def exitWith (command : Command) : Except Failure Unit → Exit
  | .ok _ => .returned 0
  | .error failure => (Error.expansion failure).ending command

/-- The call ends with an exit code that programs use. -/
def Session.Returns (session : Session) : Prop := ∃ code, session.exit = .returned code ∧ code ≤ 2

/-- A command fails with these errors, and this settles how it ends: with the error if there is one,
and otherwise with an exit code that programs use. -/
structure EndsBy (command : Command) (x : Nat → Option Session) (fails : Error → Prop) : Prop where
  /-- More fuel makes no difference. -/
  stable : Stable x
  /-- An error settles how the command ends. -/
  failing : ∀ error, fails error → ∃ session, Settles x session ∧
      session.exit = error.ending command
  /-- Without an error the command returns. -/
  returning : (∀ error, ¬ fails error) → ∃ session, Settles x session ∧ session.Returns

/-- The reports that are left out make no difference. -/
theorem EndsBy.atLeast {x : Nat → Option Session} {fails : Error → Prop}
    (h : EndsBy command x fails) (threshold : Severity) :
    EndsBy command (fun fuel => (x fuel).map (·.atLeast threshold)) fails where
  stable n m hle outcome hn := by
    obtain ⟨session, hsession, heq⟩ := Option.map_eq_some_iff.mp hn
    exact Option.map_eq_some_iff.mpr ⟨session, h.stable n m hle session hsession, heq⟩
  failing error herror := by
    obtain ⟨session, ⟨fuel, hsession⟩, hexit⟩ := h.failing error herror
    exact ⟨session.atLeast threshold, ⟨fuel, Option.map_eq_some_iff.mpr ⟨session, hsession, rfl⟩⟩,
      hexit⟩
  returning hfine := by
    obtain ⟨session, ⟨fuel, hsession⟩, hreturns⟩ := h.returning hfine
    exact ⟨session.atLeast threshold, ⟨fuel, Option.map_eq_some_iff.mpr ⟨session, hsession, rfl⟩⟩,
      hreturns⟩

/-! ### Processing a configuration -/

/-- The command finds a file for the configuration, and reads this from it. -/
def Configures (modules : List Hook.Module) (tree : Tree) (path : Text) (source : GlobalsSource)
    (result : Except Error Config) : Prop :=
  '\x00' ∉ path ∧ tree.has (Path.resolve tree.cwd path) = true ∧
    complete tree source (Config.load modules tree (Path.resolve tree.cwd path)) = result

/-- The session in which the files are processed, when the configuration has been loaded. -/
def loaded (tree : Tree) (path : Text) (config : Config) : Session :=
  let session :=
    Session.report { tree } .info ("Loading configuration: " ++ Path.resolve tree.cwd path)
  if config.files.isEmpty then session.report .warning "No files configured; nothing to do"
    else session

theorem tree_loaded (tree : Tree) (path : Text) (config : Config) :
    (loaded tree path config).tree = tree := by
  unfold loaded
  simp only
  split <;> rfl

theorem exit_loaded (tree : Tree) (path : Text) (config : Config) :
    (loaded tree path config).exit = .returned 0 := by
  unfold loaded
  simp only
  split <;> rfl

section

variable [Codecs]

/-- The expansions end to which the processing of a configuration comes. -/
def RunEnds (modules : List Hook.Module) (tree : Tree) (path : Text) (dryRun : Bool)
    (source : GlobalsSource) : Prop :=
  ∀ config, dryRun = false →
    complete tree source (Config.load modules tree (Path.resolve tree.cwd path)) = .ok config →
    ∀ tree' file, Runner.Visits config config.files (.new tree) tree' file → Ends config tree' file

theorem stable_process (config : Config) (session : Session) :
    Stable fun fuel => process fuel config session := by
  intro n m hle outcome h
  simp only [process] at h ⊢
  split at h
  · exact h
  · split at h
    · cases h
    all_goals
      rename_i hrun
      simp only [Runner.stable_run config _ n m hle _ hrun]
      exact h

theorem stable_run (modules : List Hook.Module) (tree : Tree) (path : Text) (dryRun : Bool)
    (source : GlobalsSource) : Stable fun fuel => run modules fuel tree path dryRun source := by
  intro n m hle outcome h
  simp only [run] at h ⊢
  split at h
  · rename_i hnull
    rw [if_pos hnull]
    exact h
  · rename_i hnull
    rw [if_neg hnull]
    split at h
    · rename_i hmissing
      rw [if_pos hmissing]
      exact h
    · rename_i hthere
      rw [if_neg hthere]
      split at h
      · exact h
      · simp only [processOrCheck] at h ⊢
        split at h
        · rename_i hdry
          rw [if_pos hdry]
          exact h
        · rename_i hdry
          rw [if_neg hdry]
          exact stable_process _ _ n m hle _ h

variable {path : Text} {dryRun : Bool} {source : GlobalsSource} {config : Config} {fuel : Nat}

theorem run_of_error (h : Configures modules tree path source (.error error)) :
    ∃ session : Session, ∀ fuel dryRun,
      run modules fuel tree path dryRun source = some (session.fail error) := by
  obtain ⟨hnull, hhas, hload⟩ := h
  refine ⟨Session.report { tree } .info ("Loading configuration: " ++ Path.resolve tree.cwd path),
    ?_⟩
  intro fuel dryRun
  simp only [run, if_neg hnull, hhas, Bool.not_true, Bool.false_eq_true, if_false, hload]

theorem run_of_config (h : Configures modules tree path source (.ok config)) :
    run modules fuel tree path dryRun source =
      if dryRun then
        some ((loaded tree path config).report .info
          "[DRY RUN] Configuration validation successful")
      else process fuel config (loaded tree path config) := by
  obtain ⟨hnull, hhas, hload⟩ := h
  simp only [run, if_neg hnull, hhas, Bool.not_true, Bool.false_eq_true, if_false, hload,
    processOrCheck]
  rfl

/-- Processing a configuration ends like a run of a new runner. -/
theorem final_process (path : Text) (dryRun : Bool) (hexit : session.exit = .returned 0)
    (hprepare : Expansion.prepare config = .ok ()) :
    (process fuel config session).map Session.final =
      (Runner.ending (Runner.run config fuel (.new session.tree))).map fun (left, result) =>
        (left, exitWith (.run path dryRun) result) := by
  have hsame := Runner.effect_run config fuel { tree := session.tree, log := session.log }
  rw [Runner.ending, ← hsame]
  unfold process
  rw [hprepare]
  cases Runner.run config fuel { tree := session.tree, log := session.log } with
  | none => rfl
  | some outcome =>
    obtain ⟨left, failure | record⟩ := outcome
    · exact congrArg some (final_fail _ _ path dryRun)
    · exact congrArg (fun exit => some (left.tree, exit)) hexit

/-- The expansion of the file that is to be rendered ends. -/
def RenderEnds (modules : List Hook.Module) (tree : Tree) (file : Text) (options : RenderOptions)
    (source : GlobalsSource) : Prop :=
  ∀ config, complete tree source (options.load modules tree) = .ok config → Ends config tree file

theorem stable_render (modules : List Hook.Module) (tree : Tree) (file : Text)
    (options : RenderOptions) (source : GlobalsSource) :
    Stable fun fuel => render modules fuel tree file options source := by
  intro n m hle outcome h
  simp only [render] at h ⊢
  split at h
  · exact h
  · simp only [renderWith] at h ⊢
    split at h
    · rename_i hmissing
      rw [if_pos hmissing]
      exact h
    · rename_i hthere
      rw [if_neg hthere]
      split at h
      · exact h
      · split at h
        · exact h
        · split at h
          · cases h
          · rename_i hexpand
            simp only [Expansion.stable_expandDocument _ _ _ _ n m hle _ hexpand]
            exact h

variable {file : Text} {options : RenderOptions}

/-- The expansions end to which a command comes. -/
def Invocation.Ends (invocation : Invocation) (modules : List Hook.Module) (tree : Tree) : Prop :=
  match invocation.command with
  | .run config dryRun => RunEnds modules tree config dryRun invocation.globals
  | .render file options => RenderEnds modules tree file options invocation.globals

end

end Splice.CommandLine
