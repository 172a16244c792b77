import Splice.Proofs.Runner.Delivering

/-!
# Runs over a single file

If the only mapping of a configuration finds a single file, then a run over it ends as the
processing of this file does, whether that succeeds or fails.

* `Runner.ending` — the tree that a step leaves, and its failure; and
* `Runner.ending_run_of_single` — a run ends like its only file.
-/

namespace Splice.Runner

/-- The tree that a step leaves, and its failure if it fails. -/
def ending {α : Type} (step : Step α) : Option (Tree × Except Failure Unit) :=
  (effect step).map fun (tree, result) => (tree, result.map fun _ => ())

theorem ending_error {α : Type} (left : Runner) (failure : Failure) :
    ending (some (left, (.error failure : Except Failure α))) =
      some (left.tree, .error failure) := rfl

theorem ending_ok {α : Type} (left : Runner) (a : α) :
    ending (some (left, .ok a)) = some (left.tree, .ok ()) := rfl

variable [Codecs]
variable {config : Config} {fuel : Nat} {runner other : Runner} {mapping : FileMapping}
  {sources : List Text} {source dest file : Text}

theorem ending_processFile (htree : other.tree = runner.tree) :
    ending (processFile config fuel other source dest) =
      ending (processFile config fuel runner source dest) := by
  unfold ending
  rw [effect_processFile htree]

/-- What the sources are processed to that are no files: they are only warned of. -/
theorem ending_processSources_of_not_isFile
    (h : ∀ source ∈ sources, runner.tree.isFile (sourcePath mapping.cwd source) = false) :
    ending (processSources config fuel mapping sources runner) = some (runner.tree, .ok ()) := by
  induction sources generalizing runner with
  | nil => rfl
  | cons source sources ih =>
    obtain ⟨hsource, hsources⟩ := List.forall_mem_cons.mp h
    rw [processSources, if_neg (by rw [hsource]; decide)]
    exact ih hsources

/-- Sources of which one only is a file are processed like this file. -/
theorem ending_processSources (hclosed : runner.tree.Closed)
    (hstands : ∀ source ∈ sources, Stands runner.tree (sourcePath mapping.cwd source))
    (hfiles : sources.filter (fun source => runner.tree.isFile (sourcePath mapping.cwd source)) =
      [file]) :
    ending (processSources config fuel mapping sources runner) =
      ending (processFile config fuel runner (sourcePath mapping.cwd file)
        (destinationFor file mapping.dest)) := by
  induction sources generalizing runner with
  | nil => cases hfiles
  | cons source sources ih =>
    obtain ⟨-, hsources⟩ := List.forall_mem_cons.mp hstands
    rw [processSources]
    cases hfile : runner.tree.isFile (sourcePath mapping.cwd source) with
    | false =>
      rw [List.filter_cons_of_neg (by simp [hfile])] at hfiles
      rw [if_neg (by decide)]
      have hrest : ending (processSources config fuel mapping sources
          (runner.warn (.notAFile (sourcePath mapping.cwd source)))) =
            _ := ih hclosed hsources hfiles
      exact hrest.trans (ending_processFile rfl)
    | true =>
      rw [List.filter_cons_of_pos (by simp [hfile])] at hfiles
      obtain ⟨rfl, hnone⟩ := List.cons.inj hfiles
      rw [if_pos rfl]
      cases hprocess : processFile config fuel runner (sourcePath mapping.cwd source)
          (destinationFor source mapping.dest) with
      | none => rfl
      | some outcome =>
        obtain ⟨next, failure | text⟩ := outcome
        · rfl
        · -- What has been written makes no file of the sources behind.
          obtain ⟨hdelivered, -⟩ := leaves_processFile_iff.mp ⟨next, text, hprocess, rfl, rfl⟩
          obtain ⟨bytes, hwrote⟩ := hdelivered.wrote hclosed
          have hrest : ∀ other ∈ sources,
              next.tree.isFile (sourcePath mapping.cwd other) = false := by
            intro other hother
            rw [(hsources other hother).isFile_eq hclosed hwrote.grows]
            exact Bool.eq_false_iff.mpr (List.filter_eq_nil_iff.mp hnone other hother)
          rw [ending_ok]
          exact ending_processSources_of_not_isFile hrest

theorem ending_processMapping (hclosed : runner.tree.Closed)
    (hrefused : Glob.refusesAny mapping.cwd mapping.sources = false)
    (hfiles : (Glob.expandAll runner.tree mapping.cwd mapping.sources).filter
      (fun source => runner.tree.isFile (sourcePath mapping.cwd source)) = [file]) :
    ending (processMapping config fuel mapping runner) =
      ending (processFile config fuel runner (sourcePath mapping.cwd file)
        (destinationFor file mapping.dest)) := by
  obtain ⟨htree, -⟩ := checkPatterns_keeps mapping.cwd runner mapping.sources
  have hstands : ∀ source ∈ Glob.expandAll runner.tree mapping.cwd mapping.sources,
      Stands (checkPatterns mapping.cwd runner mapping.sources).tree
        (sourcePath mapping.cwd source) := by
    rw [htree]
    exact fun source => stands_of_mem_expandAll hclosed
  rw [processMapping, hrefused]
  simp only [htree]
  rw [if_neg (by decide), ending_processSources (htree ▸ hclosed) hstands
    (by rw [htree]; exact hfiles)]
  exact ending_processFile htree

/-- If the only mapping of a configuration finds a single file, then a run ends like this file. -/
theorem ending_run_of_single (hclosed : runner.tree.Closed) (hshown : config.isShowable = true)
    (hmapping : config.files = [mapping])
    (hrefused : Glob.refusesAny mapping.cwd mapping.sources = false)
    (hfiles : (Glob.expandAll runner.tree mapping.cwd mapping.sources).filter
      (fun source => runner.tree.isFile (sourcePath mapping.cwd source)) = [file]) :
    ending (run config fuel runner) =
      ending (processFile config fuel runner (sourcePath mapping.cwd file)
        (destinationFor file mapping.dest)) := by
  have hfresh : ending (processMapping config fuel mapping runner.fresh) =
      ending (processFile config fuel runner.fresh (sourcePath mapping.cwd file)
        (destinationFor file mapping.dest)) :=
    ending_processMapping hclosed hrefused hfiles
  rw [run_of_isShowable hshown, hmapping, processMappings]
  refine Eq.trans ?_ (hfresh.trans (ending_processFile rfl))
  cases processMapping config fuel mapping runner.fresh with
  | none => rfl
  | some outcome =>
    obtain ⟨left, failure | _⟩ := outcome <;> rfl

end Splice.Runner
