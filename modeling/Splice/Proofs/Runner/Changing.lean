import Splice.Proofs.Runner.Aborting
import Splice.Proofs.Tree.Writing

/-!
# What a run changes

However a run ends, it changes no files but the destinations of the sources that its mappings have
found.

* `Runner.Keeps` — files stay as they are, apart from those at certain places;
* `Runner.Finds` — a source is found by a mapping of a run; and
* `Runner.exists_finds_of_changed` — the files that a run changes.
-/

namespace Splice.Runner

variable {config : Config} {fuel : Nat} {runner left : Runner} {source dest : Text} {place : Place}

/-- A step that ends so has changed files at these places only. If it has succeeded, then everything
still stands in a directory. -/
structure Keeps {α : Type} (tree left : Tree) (places : Place → Prop) (result : Except Failure α) :
    Prop where
  bytes? : ∀ place, ¬ places place → left.bytes? place = tree.bytes? place
  closed : ∀ a, result = .ok a → left.Closed ∧ left.cwd = tree.cwd

/-- A step that goes on where another one has succeeded. -/
theorem Keeps.trans {α β : Type} {tree next after : Tree} {places more : Place → Prop} {a : α}
    {result : Except Failure β} (h : Keeps tree next places (.ok a : Except Failure α))
    (hnext : Keeps next after more result) :
    Keeps tree after (fun place => places place ∨ more place) result where
  bytes? place hplace := by
    obtain ⟨hplaces, hmore⟩ := not_or.mp hplace
    rw [hnext.bytes? place hmore, h.bytes? place hplaces]
  closed b hb := by
    obtain ⟨hclosed, hcwd⟩ := hnext.closed b hb
    exact ⟨hclosed, hcwd.trans (h.closed a rfl).2⟩

theorem Keeps.mono {α : Type} {tree left : Tree} {places more : Place → Prop}
    {result : Except Failure α} (h : Keeps tree left places result)
    (hmore : ∀ place, places place → more place) :
    Keeps tree left more result where
  bytes? place hplace := h.bytes? place fun hplaces => hplace (hmore place hplaces)
  closed := h.closed

theorem keeps_self {tree : Tree} (hclosed : tree.Closed) (places : Place → Prop) :
    Keeps tree tree places (.ok () : Except Failure Unit) where
  bytes? _ _ := rfl
  closed _ _ := ⟨hclosed, rfl⟩

variable [Codecs]

/-- Processing a file changes its destination only. -/
theorem keeps_processFile (hclosed : runner.tree.Closed) {result : Except Failure Text}
    (h : processFile config fuel runner source dest = some (left, result)) :
    Keeps runner.tree left.tree (fun place => place = runner.tree.placeOf dest) result := by
  cases processed_processFile h with
  | failed _ htree _ =>
    rw [htree]
    exact ⟨fun _ _ => rfl, fun _ hok => nomatch hok⟩
  | unwritten _ hwrite _ =>
    refine ⟨fun place hplace => ?_, fun _ hok => nomatch hok⟩
    rw [← File.bytes?_write hclosed hplace, hwrite]
  | written hwrite _ =>
    obtain ⟨bytes, -, hwrote⟩ := File.wrote_of_write hclosed hwrite
    refine ⟨fun place hplace => ?_, fun _ _ => ⟨hwrote.closed, hwrote.cwd⟩⟩
    rw [← File.bytes?_write hclosed hplace, hwrite]

/-- Processing the sources of a mapping changes their destinations only. -/
theorem keeps_processSources {mapping : FileMapping} {sources : List Text}
    {result : Except Failure Unit} (hclosed : runner.tree.Closed)
    (h : processSources config fuel mapping sources runner = some (left, result)) :
    Keeps runner.tree left.tree
      (fun place => ∃ source ∈ sources,
        place = runner.tree.placeOf (destinationFor source mapping.dest)) result := by
  induction sources generalizing runner with
  | nil =>
    cases h
    exact keeps_self hclosed _
  | cons source sources ih =>
    rw [processSources] at h
    split at h
    · split at h
      · cases h
      · rename_i failed failure hfile
        cases h
        have hfailed := keeps_processFile hclosed hfile
        constructor
        · exact fun place hplace => hfailed.bytes? place fun heq =>
            hplace ⟨source, List.mem_cons_self, heq⟩
        · intro _ hok
          cases hok
      · rename_i next text hfile
        have hfirst := keeps_processFile hclosed hfile
        obtain ⟨hnext, hcwd⟩ := hfirst.closed text rfl
        refine (hfirst.trans (ih hnext h)).mono fun place hplace => ?_
        rcases hplace with hplace | ⟨other, hother, hplace⟩
        · exact ⟨source, List.mem_cons_self, hplace⟩
        · rw [Tree.placeOf_of_cwd hcwd] at hplace
          exact ⟨other, List.mem_cons_of_mem _ hother, hplace⟩
    · have hwarned : (runner.warn (.notAFile (sourcePath mapping.cwd source))).tree.Closed :=
        hclosed
      refine (ih hwarned h).mono fun place hplace => ?_
      obtain ⟨other, hother, heq⟩ := hplace
      exact ⟨other, List.mem_cons_of_mem _ hother, heq⟩

/-- The source is found by this mapping when mappings are processed one after the other. -/
inductive Finds (config : Config) (fuel : Nat) (mapping : FileMapping) (source : Text) :
    List FileMapping → Runner → Prop
  /-- The mapping is the first one. -/
  | first {mappings : List FileMapping} {runner : Runner} :
      Glob.refusesAny mapping.cwd mapping.sources = false →
      source ∈ Glob.expandAll runner.tree mapping.cwd mapping.sources →
      Finds config fuel mapping source (mapping :: mappings) runner
  /-- It comes when the sources of the first one have been processed. -/
  | later {other : FileMapping} {mappings : List FileMapping} {runner next : Runner} :
      processMapping config fuel other runner = some (next, .ok ()) →
      Finds config fuel mapping source mappings next →
      Finds config fuel mapping source (other :: mappings) runner

theorem finds_single_iff {only mapping : FileMapping} :
    Finds config fuel mapping source [only] runner ↔
      mapping = only ∧ Glob.refusesAny only.cwd only.sources = false ∧
        source ∈ Glob.expandAll runner.tree only.cwd only.sources := by
  constructor
  · intro h
    cases h with
    | first hrefused hsource => exact ⟨rfl, hrefused, hsource⟩
    | later _ hnone => cases hnone
  · rintro ⟨rfl, hrefused, hsource⟩
    exact .first hrefused hsource

/-- Processing a mapping changes the destinations of what it finds only. -/
theorem keeps_processMapping {mapping : FileMapping} {result : Except Failure Unit}
    (hclosed : runner.tree.Closed)
    (h : processMapping config fuel mapping runner = some (left, result)) :
    Keeps runner.tree left.tree
      (fun place => ∃ source, Glob.refusesAny mapping.cwd mapping.sources = false ∧
        source ∈ Glob.expandAll runner.tree mapping.cwd mapping.sources ∧
        place = runner.tree.placeOf (destinationFor source mapping.dest)) result := by
  obtain ⟨htree, -⟩ := checkPatterns_keeps mapping.cwd runner mapping.sources
  have hchecked : (checkPatterns mapping.cwd runner mapping.sources).tree.Closed := htree ▸ hclosed
  simp only [processMapping, htree] at h
  split at h
  · cases h
    rw [htree]
    constructor
    · intro _ _
      rfl
    · intro _ hok
      cases hok
  · rename_i hrefused
    have hkeeps := keeps_processSources hchecked h
    rw [htree] at hkeeps
    refine hkeeps.mono fun place hplace => ?_
    obtain ⟨source, hsource, heq⟩ := hplace
    exact ⟨source, Bool.eq_false_iff.mpr hrefused, hsource, heq⟩

/-- Processing mappings changes the destinations of what they find only. -/
theorem keeps_processMappings {mappings : List FileMapping} {result : Except Failure Unit}
    (hclosed : runner.tree.Closed)
    (h : processMappings config fuel mappings runner = some (left, result)) :
    Keeps runner.tree left.tree
      (fun place => ∃ mapping source, Finds config fuel mapping source mappings runner ∧
        place = runner.tree.placeOf (destinationFor source mapping.dest)) result := by
  induction mappings generalizing runner with
  | nil =>
    cases h
    exact keeps_self hclosed _
  | cons mapping mappings ih =>
    rw [processMappings] at h
    split at h
    · cases h
    · rename_i failed failure hmapping
      cases h
      -- The run ends here, so that the later mappings change nothing.
      have hfailed := keeps_processMapping hclosed hmapping
      constructor
      · intro place hplace
        refine hfailed.bytes? place fun hsource => hplace ?_
        obtain ⟨source, hrefused, hsource, heq⟩ := hsource
        exact ⟨mapping, source, .first hrefused hsource, heq⟩
      · intro _ hok
        cases hok
    · rename_i next hmapping
      -- The later destinations are seen from the same directory as before.
      have hfirst := keeps_processMapping hclosed hmapping
      obtain ⟨hnext, hcwd⟩ := hfirst.closed () rfl
      refine (hfirst.trans (ih hnext h)).mono fun place hplace => ?_
      rcases hplace with ⟨source, hrefused, hsource, heq⟩ | ⟨other, source, hfinds, heq⟩
      · exact ⟨mapping, source, .first hrefused hsource, heq⟩
      · rw [Tree.placeOf_of_cwd hcwd] at heq
        exact ⟨other, source, .later hmapping hfinds, heq⟩

/-- A file that a run changes is the destination of a source that a mapping of the run has found. -/
theorem exists_finds_of_changed (hclosed : runner.tree.Closed) {result : Except Failure Record}
    (h : run config fuel runner = some (left, result))
    (hchanged : left.tree.bytes? place ≠ runner.tree.bytes? place) :
    ∃ mapping source, Finds config fuel mapping source config.files runner.fresh ∧
      place = runner.tree.placeOf (destinationFor source mapping.dest) := by
  have hfresh : runner.fresh.tree.Closed := hclosed
  by_contra hnone
  apply hchanged
  unfold run at h
  split at h
  · cases h
    rfl
  split at h
  · cases h
  · rename_i failed failure hmappings
    cases h
    exact (keeps_processMappings hfresh hmappings).bytes? place hnone
  · rename_i done hmappings
    cases h
    exact (keeps_processMappings hfresh hmappings).bytes? place hnone

end Splice.Runner
