import Splice.Proofs.Glob.Existing
import Splice.Proofs.Runner.Settling
import Splice.Proofs.Tree.Writing

/-!
# What a run delivers

A run that succeeds delivers one document after the other. Which files are delivered is settled when
the sources of a mapping are found: they stay files, and nothing else that is found becomes one.

* `Runner.Delivered`, `Runner.Delivers` — a document, or one after the other, is read, expanded and
  written;
* `Runner.pairsOf` — the sources of a mapping that are files, and their destinations; and
* `Runner.leaves_run_iff` — what a run leaves that succeeds.
-/

namespace Splice.Runner

variable {config : Config} {fuel : Nat} {tree next left : Tree} {runner : Runner}
  {source dest path : Text} {processed : List (Text × Text)}

/-! ### Sources that stand -/

/-- There is something at the path, unless it ends with a slash. -/
def Stands (tree : Tree) (path : Text) : Prop := tree.has path = true ∨ Path.leaf path = []

/-- What stands stays a file, or no file. -/
theorem Stands.isFile_eq (h : Stands tree path) (hclosed : tree.Closed) (hgrows : tree.Grows left) :
    left.isFile path = tree.isFile path := by
  rcases h with hhas | hleaf
  · cases hlocate : tree.locate path with
    | error fault => simp [Tree.has, Tree.find?, hlocate] at hhas
    | ok place =>
      have hthere := Tree.locate_isSome hclosed hlocate
      obtain ⟨entry, hentry⟩ := Option.isSome_iff_exists.mp hthere
      rw [Tree.isFile, Tree.isFile, Tree.find?, Tree.find?, hlocate, hgrows.locate hlocate]
      cases entry with
      | directory => simp [hentry, hgrows.directory place hentry]
      | file bytes =>
        obtain ⟨bytes', hleft⟩ := hgrows.file place bytes hentry
        simp [hentry, hleft]
  · have hnot (tree : Tree) : tree.isFile path = false := by
      cases hfile : tree.isFile path with
      | false => rfl
      | true => exact absurd hleaf (Tree.leaf_ne_nil_of_isFile hfile)
    rw [hnot, hnot]

theorem Stands.grows (h : Stands tree path) (hclosed : tree.Closed) (hgrows : tree.Grows left) :
    Stands left path :=
  h.imp_left (hgrows.has hclosed)

/-- The sources that patterns find stand. -/
theorem stands_of_mem_expandAll (hclosed : tree.Closed) {cwd : Option Text} {patterns : List Text}
    (h : source ∈ Glob.expandAll tree cwd patterns) : Stands tree (sourcePath cwd source) := by
  have hstands := Glob.has_of_mem_expandAll hclosed h
  by_cases hsource : source = []
  · subst hsource
    refine .inr ?_
    unfold sourcePath
    split
    · rfl
    · split
      · rfl
      · exact Path.leaf_join_eq_nil rfl _
  · have hpath : sourcePath cwd source = Glob.within (cwd.getD []) source := by
      cases cwd with
      | none => rfl
      | some directory => simp [sourcePath, Glob.within, hsource]
    rw [hpath]
    refine hstands.imp_right fun hleaf => ?_
    unfold Glob.within
    split
    · exact hleaf
    · split
      · exact absurd (List.isEmpty_iff.mp ‹_›) hsource
      · exact Path.leaf_join_eq_nil hleaf _

/-- The sources that are files, and where they are written. -/
def pairsOf (tree : Tree) (mapping : FileMapping) (sources : List Text) : List (Text × Text) :=
  (sources.filter fun source => tree.isFile (sourcePath mapping.cwd source)).map fun source =>
    (sourcePath mapping.cwd source, destinationFor source mapping.dest)

variable {mapping : FileMapping} {sources : List Text}

theorem pairsOf_grows (hclosed : tree.Closed) (hgrows : tree.Grows left)
    (hstands : ∀ source ∈ sources, Stands tree (sourcePath mapping.cwd source)) :
    pairsOf left mapping sources = pairsOf tree mapping sources := by
  unfold pairsOf
  congr 1
  exact List.filter_congr fun source hsource =>
    (hstands source hsource).isFile_eq hclosed hgrows

/-! ### Steps that succeed -/

/-- The step succeeds with this tree and this record of what has been processed. -/
def Leaves {α : Type} (step : Step α) (tree : Tree) (processed : List (Text × Text)) : Prop :=
  ∃ left a, step = some (left, .ok a) ∧ left.tree = tree ∧ left.record.processed = processed

theorem leaves_ok_iff {α : Type} {a : α} :
    Leaves (some (runner, .ok a)) tree processed ↔
      tree = runner.tree ∧ processed = runner.record.processed := by
  constructor
  · intro ⟨left, b, h, htree, hprocessed⟩
    cases h
    exact ⟨htree.symm, hprocessed.symm⟩
  · intro ⟨htree, hprocessed⟩
    exact ⟨runner, a, rfl, htree.symm, hprocessed.symm⟩

theorem not_leaves_error {α : Type} {failure : Failure} :
    ¬ Leaves (some (runner, (.error failure : Except Failure α))) tree processed := by
  intro ⟨left, a, h, _⟩
  cases h

theorem not_leaves_none {α : Type} : ¬ Leaves (none : Step α) tree processed := by
  intro ⟨left, a, h, _⟩
  cases h

variable [Codecs]

/-! ### Documents -/

/-- The document is read, expanded and written. -/
def Delivered (config : Config) (fuel : Nat) (tree : Tree) (source dest : Text) (left : Tree) :
    Prop :=
  ∃ document warnings text, File.read tree source config.encoding = .ok document ∧
    Expansion.expandDocument config tree fuel document source = some (warnings, .ok text) ∧
    File.write tree dest text config.encoding = (left, .ok ())

/-- Documents are delivered one after the other. -/
inductive Delivers (config : Config) (fuel : Nat) : Tree → List (Text × Text) → Tree → Prop
  /-- There are no documents. -/
  | nil {tree : Tree} : Delivers config fuel tree [] tree
  /-- There is a first document. -/
  | cons {tree next left : Tree} {source dest : Text} {pairs : List (Text × Text)} :
      Delivered config fuel tree source dest next → Delivers config fuel next pairs left →
      Delivers config fuel tree ((source, dest) :: pairs) left

theorem delivers_cons_iff {pairs : List (Text × Text)} :
    Delivers config fuel tree ((source, dest) :: pairs) left ↔
      ∃ next, Delivered config fuel tree source dest next ∧
        Delivers config fuel next pairs left := by
  constructor
  · intro h
    cases h with
    | cons hfirst hrest => exact ⟨_, hfirst, hrest⟩
  · intro ⟨next, hfirst, hrest⟩
    exact .cons hfirst hrest

theorem delivers_nil_iff : Delivers config fuel tree [] left ↔ left = tree := by
  constructor
  · intro h
    cases h
    rfl
  · intro h
    rw [h]
    exact .nil

theorem Delivered.wrote (hclosed : tree.Closed) (h : Delivered config fuel tree source dest left) :
    ∃ bytes, tree.Wrote dest bytes left := by
  obtain ⟨document, warnings, text, -, -, hwrite⟩ := h
  obtain ⟨bytes, -, hwrote⟩ := File.wrote_of_write hclosed hwrite
  exact ⟨bytes, hwrote⟩

theorem Delivers.grows {pairs : List (Text × Text)} (hclosed : tree.Closed)
    (h : Delivers config fuel tree pairs left) : tree.Grows left ∧ left.Closed := by
  induction h with
  | nil => exact ⟨.refl _, hclosed⟩
  | cons hfirst _ ih =>
    obtain ⟨bytes, hwrote⟩ := hfirst.wrote hclosed
    obtain ⟨hgrows, hleft⟩ := ih hwrote.closed
    exact ⟨hwrote.grows.trans hgrows, hleft⟩

theorem leaves_writeOutput_iff {text : Text} :
    Leaves (some (writeOutput config runner source dest text)) tree processed ↔
      File.write runner.tree dest text config.encoding = (tree, .ok ()) ∧
        processed = runner.record.processed ++ [(source, dest)] := by
  unfold writeOutput
  cases hwrite : File.write runner.tree dest text config.encoding with
  | mk left result =>
    cases result with
    | error e => simp [not_leaves_error]
    | ok => simp [leaves_ok_iff, report, eq_comm]

/-- A file is processed just if its document is delivered. -/
theorem leaves_processFile_iff :
    Leaves (processFile config fuel runner source dest) tree processed ↔
      Delivered config fuel runner.tree source dest tree ∧
        processed = runner.record.processed ++ [(source, dest)] := by
  unfold processFile Delivered
  simp only [report]
  cases hread : File.read runner.tree source config.encoding with
  | error e => simp [not_leaves_error]
  | ok document =>
    simp only [Except.ok.injEq]
    cases hexpand : Expansion.expandDocument config runner.tree fuel document source with
    | none =>
      simp only [not_leaves_none, false_iff]
      intro h
      obtain ⟨⟨_, _, _, heq, hsome, _⟩, _⟩ := h
      subst heq
      cases hexpand.symm.trans hsome
    | some outcome =>
      obtain ⟨warnings, failure | text⟩ := outcome
      · simp only [not_leaves_error, false_iff]
        intro h
        obtain ⟨⟨_, _, _, heq, hsome, _⟩, _⟩ := h
        subst heq
        cases hexpand.symm.trans hsome
      · simp only [leaves_writeOutput_iff, noteIncludes]
        refine and_congr_left fun _ =>
          ⟨fun hwrite => ⟨document, warnings, text, rfl, hexpand, hwrite⟩, ?_⟩
        intro h
        obtain ⟨_, _, _, heq, hsome, hwrite⟩ := h
        subst heq
        cases hexpand.symm.trans hsome
        exact hwrite

/-! ### The sources of a mapping -/

theorem leaves_processSources_cons_iff
    (hfile : runner.tree.isFile (sourcePath mapping.cwd source) = true) :
    Leaves (processSources config fuel mapping (source :: sources) runner) tree processed ↔
      ∃ next text, processFile config fuel runner (sourcePath mapping.cwd source)
          (destinationFor source mapping.dest) = some (next, .ok text) ∧
        Leaves (processSources config fuel mapping sources next) tree processed := by
  simp only [processSources, hfile, if_true]
  cases hprocess : processFile config fuel runner (sourcePath mapping.cwd source)
      (destinationFor source mapping.dest) with
  | none => simp [not_leaves_none]
  | some outcome =>
    obtain ⟨next, failure | text⟩ := outcome <;> simp [not_leaves_error]

/-- The sources of a mapping are processed just if the documents are delivered that are files when
the first of them is processed. -/
theorem leaves_processSources_iff (hclosed : runner.tree.Closed)
    (hstands : ∀ source ∈ sources, Stands runner.tree (sourcePath mapping.cwd source)) :
    Leaves (processSources config fuel mapping sources runner) tree processed ↔
      Delivers config fuel runner.tree (pairsOf runner.tree mapping sources) tree ∧
        processed = runner.record.processed ++ pairsOf runner.tree mapping sources := by
  induction sources generalizing runner with
  | nil => simp [processSources, leaves_ok_iff, pairsOf, delivers_nil_iff]
  | cons source sources ih =>
    obtain ⟨-, hsources⟩ := List.forall_mem_cons.mp hstands
    cases hfile : runner.tree.isFile (sourcePath mapping.cwd source) with
    | false =>
      have hpairs : pairsOf runner.tree mapping (source :: sources) =
          pairsOf runner.tree mapping sources := by
        simp [pairsOf, hfile]
      rw [hpairs, processSources, hfile]
      exact ih hclosed hsources
    | true =>
      have hpairs : pairsOf runner.tree mapping (source :: sources) =
          (sourcePath mapping.cwd source, destinationFor source mapping.dest) ::
            pairsOf runner.tree mapping sources := by
        simp [pairsOf, hfile]
      -- The sources that are left are the same files when the first one has been written.
      have hrest (next : Runner) (hfirst : Delivered config fuel runner.tree
            (sourcePath mapping.cwd source) (destinationFor source mapping.dest) next.tree) :
          Leaves (processSources config fuel mapping sources next) tree processed ↔
            Delivers config fuel next.tree (pairsOf runner.tree mapping sources) tree ∧
              processed = next.record.processed ++ pairsOf runner.tree mapping sources := by
        obtain ⟨bytes, hwrote⟩ := hfirst.wrote hclosed
        rw [← pairsOf_grows hclosed hwrote.grows hsources]
        exact ih hwrote.closed fun other hother =>
          (hsources other hother).grows hclosed hwrote.grows
      rw [hpairs, leaves_processSources_cons_iff hfile, delivers_cons_iff]
      constructor
      · intro h
        obtain ⟨next, text, hprocess, hleaves⟩ := h
        obtain ⟨hfirst, hprocessed⟩ := leaves_processFile_iff.mp ⟨next, text, hprocess, rfl, rfl⟩
        obtain ⟨hdelivers, heq⟩ := (hrest next hfirst).mp hleaves
        rw [hprocessed, List.append_assoc] at heq
        exact ⟨⟨next.tree, hfirst, hdelivers⟩, heq⟩
      · intro h
        obtain ⟨⟨after, hfirst, hdelivers⟩, heq⟩ := h
        obtain ⟨next, text, hprocess, htree, hprocessed⟩ := leaves_processFile_iff.mpr ⟨hfirst, rfl⟩
        subst htree
        refine ⟨next, text, hprocess, (hrest next hfirst).mpr ⟨hdelivers, ?_⟩⟩
        rw [hprocessed, List.append_assoc]
        exact heq

/-! ### All mappings -/

/-- The files that a mapping finds, and where they are written. -/
def pairsIn (tree : Tree) (mapping : FileMapping) : List (Text × Text) :=
  pairsOf tree mapping (Glob.expandAll tree mapping.cwd mapping.sources)

/-- The files are delivered that mappings find, each when the files of those before it have been. No
pattern of a mapping is refused. -/
inductive DeliversAll (config : Config) (fuel : Nat) :
    Tree → List FileMapping → List (Text × Text) → Tree → Prop
  /-- There are no mappings. -/
  | nil {tree : Tree} : DeliversAll config fuel tree [] [] tree
  /-- There is a first mapping. -/
  | cons {tree next left : Tree} {mapping : FileMapping} {mappings : List FileMapping}
      {pairs : List (Text × Text)} :
      Glob.refusesAny mapping.cwd mapping.sources = false →
      Delivers config fuel tree (pairsIn tree mapping) next →
      DeliversAll config fuel next mappings pairs left →
      DeliversAll config fuel tree (mapping :: mappings) (pairsIn tree mapping ++ pairs) left

variable {mappings : List FileMapping} {pairs : List (Text × Text)}

theorem deliversAll_nil_iff :
    DeliversAll config fuel tree [] pairs left ↔ pairs = [] ∧ left = tree := by
  constructor
  · intro h
    cases h
    exact ⟨rfl, rfl⟩
  · intro ⟨hpairs, hleft⟩
    rw [hpairs, hleft]
    exact .nil

theorem deliversAll_cons_iff :
    DeliversAll config fuel tree (mapping :: mappings) pairs left ↔
      Glob.refusesAny mapping.cwd mapping.sources = false ∧
        ∃ next rest, Delivers config fuel tree (pairsIn tree mapping) next ∧
          DeliversAll config fuel next mappings rest left ∧
            pairs = pairsIn tree mapping ++ rest := by
  constructor
  · intro h
    cases h with
    | cons hrefused hfirst hrest => exact ⟨hrefused, _, _, hfirst, hrest, rfl⟩
  · intro ⟨hrefused, next, rest, hfirst, hrest, hpairs⟩
    rw [hpairs]
    exact .cons hrefused hfirst hrest

theorem leaves_processMappings_cons_iff :
    Leaves (processMappings config fuel (mapping :: mappings) runner) tree processed ↔
      ∃ next, processMapping config fuel mapping runner = some (next, .ok ()) ∧
        Leaves (processMappings config fuel mappings next) tree processed := by
  rw [processMappings]
  cases hmapping : processMapping config fuel mapping runner with
  | none => simp [not_leaves_none]
  | some outcome =>
    obtain ⟨next, failure | _⟩ := outcome <;> simp [not_leaves_error]

/-- A mapping is processed just if none of its patterns is refused and the files are delivered that
it finds. -/
theorem leaves_processMapping_iff (hclosed : runner.tree.Closed) :
    Leaves (processMapping config fuel mapping runner) tree processed ↔
      Glob.refusesAny mapping.cwd mapping.sources = false ∧
        Delivers config fuel runner.tree (pairsIn runner.tree mapping) tree ∧
        processed = runner.record.processed ++ pairsIn runner.tree mapping := by
  -- Checking the patterns only warns.
  obtain ⟨htree, hrecord⟩ := checkPatterns_keeps mapping.cwd runner mapping.sources
  simp only [processMapping, htree]
  cases hrefused : Glob.refusesAny mapping.cwd mapping.sources with
  | true => simp [not_leaves_error]
  | false =>
    have hstands : ∀ source ∈ Glob.expandAll runner.tree mapping.cwd mapping.sources,
        Stands (checkPatterns mapping.cwd runner mapping.sources).tree
          (sourcePath mapping.cwd source) := by
      rw [htree]
      exact fun source => stands_of_mem_expandAll hclosed
    rw [if_neg (by decide), leaves_processSources_iff (htree ▸ hclosed) hstands, htree, hrecord]
    exact (and_iff_right rfl).symm

/-- Mappings are processed just if the files are delivered that they find. -/
theorem leaves_processMappings_iff (hclosed : runner.tree.Closed) :
    Leaves (processMappings config fuel mappings runner) tree processed ↔
      ∃ pairs, DeliversAll config fuel runner.tree mappings pairs tree ∧
        processed = runner.record.processed ++ pairs := by
  induction mappings generalizing runner with
  | nil => simp [processMappings, leaves_ok_iff, deliversAll_nil_iff]
  | cons mapping mappings ih =>
    rw [leaves_processMappings_cons_iff]
    constructor
    · intro h
      obtain ⟨next, hmapping, hleaves⟩ := h
      obtain ⟨hrefused, hdelivers, hprocessed⟩ :=
        (leaves_processMapping_iff hclosed).mp ⟨next, (), hmapping, rfl, rfl⟩
      obtain ⟨pairs, hrest, heq⟩ := (ih (hdelivers.grows hclosed).2).mp hleaves
      rw [hprocessed, List.append_assoc] at heq
      exact ⟨_, .cons hrefused hdelivers hrest, heq⟩
    · intro h
      obtain ⟨pairs, hall, heq⟩ := h
      obtain ⟨hrefused, after, rest, hdelivers, hrest, rfl⟩ := deliversAll_cons_iff.mp hall
      obtain ⟨next, _, hmapping, htree, hprocessed⟩ :=
        (leaves_processMapping_iff hclosed).mpr ⟨hrefused, hdelivers, rfl⟩
      subst htree
      refine ⟨next, hmapping, (ih (hdelivers.grows hclosed).2).mpr ⟨rest, hrest, ?_⟩⟩
      rw [hprocessed, List.append_assoc]
      exact heq

/-- A run succeeds just if the options can be shown and the files are delivered that its mappings
find; these are recorded. -/
theorem leaves_run_iff (hclosed : runner.tree.Closed) :
    Leaves (run config fuel runner) tree processed ↔
      config.isShowable = true ∧
        DeliversAll config fuel runner.tree config.files processed tree := by
  have hmappings : Leaves (processMappings config fuel config.files runner.fresh) tree processed ↔
      ∃ pairs, DeliversAll config fuel runner.tree config.files pairs tree ∧
        processed = [] ++ pairs :=
    leaves_processMappings_iff hclosed
  unfold run
  cases config.isShowable with
  | false => simp [not_leaves_error]
  | true =>
    refine Iff.trans ?_ (hmappings.trans ?_)
    · cases processMappings config fuel config.files runner.fresh with
      | none => simp [not_leaves_none]
      | some outcome =>
        obtain ⟨left, failure | _⟩ := outcome
        · simp [not_leaves_error]
        · simp [leaves_ok_iff, finish]
    · simp

end Splice.Runner
