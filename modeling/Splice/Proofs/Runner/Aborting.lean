import Mathlib
import Splice.Proofs.Encoding.Failing
import Splice.Proofs.Expansion.Failing
import Splice.Proofs.Runner.History
import Splice.Proofs.Tree.Files
import Splice.Proofs.Tree.Paths

/-!
# What a failure leaves

A document that fails is not recorded, and it leaves the files as they are, unless its expanded text
has no bytes in the encoding: by then its destination has been opened, and is empty.

* `Runner.Processed` — how the processing of a file can end;
* `Runner.processPairs` — files that are processed one after the other;
* `Runner.aborted_run` — a run that fails has processed the files of its record, and one that
  failed; and
* `Runner.sameFiles_iff_not_empties` — which files a failure leaves.
-/

namespace Splice

/-! ### Failures to encode -/

/-- Does a text have characters without bytes? -/
def Failure.isUnencodable : Failure → Bool
  | .file (.encoding error) => error.isUnencodable
  | _ => false

theorem File.encodingNamed_error [Codecs] {name : Text} {e : File.Error}
    (h : encodingNamed name = .error e) : (Failure.file e).isUnencodable = false := by
  obtain ⟨error, herror, rfl⟩ := mapError_eq_error_iff.mp h
  exact Encoding.codecOf_error herror

theorem File.read_error [Codecs] {tree : Tree} {path name : Text} {e : File.Error}
    (h : read tree path name = .error e) : (Failure.file e).isUnencodable = false := by
  rcases bind_eq_error_iff.mp h with hname | ⟨_, -, h⟩
  · rw [checkName_error hname]
    rfl
  rcases bind_eq_error_iff.mp h with hbytes | ⟨bytes, -, h⟩
  · rcases readBytes_error hbytes with ⟨-, rfl⟩ | ⟨-, fault, rfl⟩
    · rfl
    · rfl
  rcases bind_eq_error_iff.mp h with hnamed | ⟨codec, -, h⟩
  · exact encodingNamed_error hnamed
  obtain ⟨error, herror, rfl⟩ := mapError_eq_error_iff.mp h
  exact Encoding.Codec.decode_error herror

/-- If a text has been read, then another fails to have bytes only because of its characters. -/
theorem File.encode_error [Codecs] {tree : Tree} {path name text text' : Text} {e : File.Error}
    (hread : read tree path name = .ok text) (h : encode name text' = .error e) :
    (Failure.file e).isUnencodable = true := by
  obtain ⟨-, bytes, codec, -, hnamed, -⟩ := read_eq_ok_iff.mp hread
  rw [encode, hnamed] at h
  obtain ⟨error, herror, rfl⟩ := mapError_eq_error_iff.mp h
  exact Encoding.Codec.encode_error herror

/-- Expansions do not fail because of characters without bytes. -/
theorem Expansion.covers_encodable [Codecs] (tree : Tree) :
    Covers tree fun failure => failure.isUnencodable = false where
  file h := File.read_error h
  template _ := rfl
  hook _ := rfl
  directive _ := rfl

namespace Runner

section

variable [Codecs]
variable {config : Config} {fuel : Nat} {runner left : Runner} {source dest : Text}

/-! ### A single file -/

/-- What the processing of a file leaves, and its result. -/
inductive Processed (config : Config) (runner : Runner) (source dest : Text) (left : Runner) :
    Except Failure Text → Prop
  /-- The file cannot be read or expanded. -/
  | failed {failure : Failure} : failure.isUnencodable = false → left.tree = runner.tree →
      left.record.processed = runner.record.processed →
      Processed config runner source dest left (.error failure)
  /-- The expanded text cannot be written. -/
  | unwritten {contents text : Text} {e : File.Error} :
      File.read runner.tree source config.encoding = .ok contents →
      File.write runner.tree dest text config.encoding = (left.tree, .error e) →
      left.record.processed = runner.record.processed →
      Processed config runner source dest left (.error (.file e))
  /-- The expanded text has been written. -/
  | written {text : Text} : File.write runner.tree dest text config.encoding = (left.tree, .ok ()) →
      left.record.processed = runner.record.processed ++ [(source, dest)] →
      Processed config runner source dest left (.ok text)

theorem writeOutput_cases {text : Text} {result : Except Failure Text}
    (h : writeOutput config runner source dest text = (left, result)) :
    (∃ e, File.write runner.tree dest text config.encoding = (left.tree, .error e) ∧
        left.record = runner.record ∧ result = .error (.file e)) ∨
      File.write runner.tree dest text config.encoding = (left.tree, .ok ()) ∧
        left.record.processed = runner.record.processed ++ [(source, dest)] ∧
          result = .ok text := by
  unfold writeOutput at h
  split at h
  · rename_i e hwrite
    cases h
    exact .inl ⟨e, hwrite, rfl, rfl⟩
  · rename_i hwrite
    cases h
    exact .inr ⟨hwrite, rfl, rfl⟩

theorem processed_processFile {result : Except Failure Text}
    (h : processFile config fuel runner source dest = some (left, result)) :
    Processed config runner source dest left result := by
  unfold processFile at h
  simp only at h
  split at h
  · rename_i e hread
    cases h
    exact .failed (File.read_error hread) rfl rfl
  · rename_i contents hread
    split at h
    · cases h
    · rename_i warnings failure hexpand
      cases h
      exact .failed (Expansion.expandDocument_failsOnly (Expansion.covers_encodable _)
        (fun _ => rfl) fuel contents source warnings failure hexpand) rfl rfl
    · rename_i warnings text hexpand
      rcases writeOutput_cases (Option.some.inj h) with ⟨e, hwrite, hrecord,
        rfl⟩ | ⟨hwrite, hrecord, rfl⟩
      · exact .unwritten hread hwrite (congrArg Record.processed hrecord)
      · exact .written hwrite hrecord

/-- Does the failure leave an empty file at a destination where there has been none? -/
def Empties (tree : Tree) (dest : Text) (failure : Failure) : Prop :=
  failure.isUnencodable = true ∧
    ∃ place, File.target? tree dest = some place ∧ tree.bytes? place ≠ some []

/-- A file that fails is not recorded. Its destination is emptied if the expanded text has no bytes;
otherwise the files are as before. -/
theorem processFile_error {failure : Failure}
    (h : processFile config fuel runner source dest = some (left, .error failure)) :
    left.record.processed = runner.record.processed ∧
      (failure.isUnencodable = false ∧ runner.tree.SameFiles left.tree ∨
        failure.isUnencodable = true ∧
          ∃ place, File.target? runner.tree dest = some place ∧
            runner.tree.Puts place [] left.tree) := by
  cases processed_processFile h with
  | failed hfailure htree hprocessed =>
    exact ⟨hprocessed, .inl ⟨hfailure, htree ▸ .refl runner.tree⟩⟩
  | @unwritten contents text e hread hwrite hprocessed =>
    refine ⟨hprocessed, ?_⟩
    have hwritten := File.written_write runner.tree dest text config.encoding
    rw [hwrite] at hwritten
    -- The contents have been read in the encoding, so that it exists.
    cases hwritten with
    | blocked he hsame =>
      refine .inl ⟨?_, hsame⟩
      cases e with
      | encoding error => exact absurd rfl (he error)
      | tree | nullInPath | nullInDirectory | nullInEncoding => rfl
    | emptied htarget he hputs =>
      exact .inr ⟨File.encode_error hread he, _, htarget, hputs⟩

/-- Only the destination of a file that fails may change. -/
theorem bytes?_of_error {failure : Failure}
    (h : processFile config fuel runner source dest = some (left, .error failure)) {place : Place}
    (hplace : File.target? runner.tree dest ≠ some place) :
    left.tree.bytes? place = runner.tree.bytes? place := by
  rcases (processFile_error h).2 with ⟨-, hsame⟩ | ⟨-, target, htarget, hputs⟩
  · exact hsame place
  · have hother : place ≠ target := by
      rintro rfl
      exact hplace htarget
    rw [hputs place, if_neg hother]

theorem sameFiles_iff_of_error {failure : Failure}
    (h : processFile config fuel runner source dest = some (left, .error failure)) :
    runner.tree.SameFiles left.tree ↔ ¬ Empties runner.tree dest failure := by
  rcases (processFile_error h).2 with ⟨hfailure, hsame⟩ | ⟨hfailure, place, htarget, hputs⟩
  · simp [Empties, hfailure, hsame]
  · simp [Empties, hfailure, htarget, hputs.sameFiles_iff]

/-! ### Several files -/

variable {other : Runner}

theorem effect_processFile (htree : other.tree = runner.tree) :
    effect (processFile config fuel other source dest) =
      effect (processFile config fuel runner source dest) := by
  unfold processFile
  simp only [report, htree]
  split
  · rfl
  · split
    · rfl
    · rfl
    · simp only [effect, writeOutput, noteIncludes]
      split <;> rfl

/-- What a file does to the tree depends on the tree only. -/
theorem processFile_transfer {result : Except Failure Text} (htree : other.tree = runner.tree)
    (h : processFile config fuel runner source dest = some (left, result)) :
    ∃ left', processFile config fuel other source dest = some (left', result) ∧
      left'.tree = left.tree := by
  rw [← effect_eq_some_iff, effect_processFile htree, effect_eq_some_iff]
  exact ⟨left, h, rfl⟩

/-- Processes files, one after the other: sources and their destinations. -/
def processPairs (config : Config) (fuel : Nat) : List (Text × Text) → Runner → Step Unit
  | [], runner => some (runner, .ok ())
  | (source, dest) :: pairs, runner =>
      match processFile config fuel runner source dest with
      | none => none
      | some (runner, .error failure) => some (runner, .error failure)
      | some (runner, .ok _) => processPairs config fuel pairs runner

theorem processPairs_concat {pairs : List (Text × Text)} {start done : Runner} {text : Text}
    (h : processPairs config fuel pairs start = some (done, .ok ()))
    (hfile : processFile config fuel done source dest = some (left, .ok text)) :
    processPairs config fuel (pairs ++ [(source, dest)]) start = some (left, .ok ()) := by
  induction pairs generalizing start with
  | nil =>
    cases h
    rw [List.nil_append, processPairs, hfile]
    rfl
  | cons pair pairs ih =>
    obtain ⟨source', dest'⟩ := pair
    rw [processPairs] at h
    rw [List.cons_append, processPairs]
    split at h
    · cases h
    · cases h
    · exact ih h

/-- The files that a runner has recorded, processed from the start, leave its tree. -/
def Replays (config : Config) (fuel : Nat) (start runner : Runner) : Prop :=
  ∃ done, processPairs config fuel runner.record.processed start = some (done, .ok ()) ∧
    done.tree = runner.tree

/-- After the files that a runner has recorded, another one fails and leaves its tree, or a pattern
for more files is refused. -/
def Aborted (config : Config) (fuel : Nat) (start runner : Runner) (failure : Failure) : Prop :=
  ∃ done, processPairs config fuel runner.record.processed start = some (done, .ok ()) ∧
    ((failure = .file .nullInPath ∧ done.tree = runner.tree) ∨
      ∃ source dest failed,
        processFile config fuel done source dest = some (failed, .error failure) ∧
        failed.tree = runner.tree)

/-- What holds of a runner after a step with this result. -/
def Reached (config : Config) (fuel : Nat) (start runner : Runner) {α : Type} :
    Except Failure α → Prop
  | .ok _ => Replays config fuel start runner
  | .error failure => Aborted config fuel start runner failure

variable {start : Runner}

theorem Replays.congr (htree : other.tree = runner.tree)
    (hprocessed : other.record.processed = runner.record.processed)
    (h : Replays config fuel start runner) : Replays config fuel start other := by
  rwa [Replays, htree, hprocessed]

theorem reached_processFile {result : Except Failure Text} (h : Replays config fuel start runner)
    (hfile : processFile config fuel runner source dest = some (left, result)) :
    Reached config fuel start left result := by
  obtain ⟨done, hdone, htree⟩ := h
  -- The file does the same after those of the record alone, without the warnings in between.
  obtain ⟨next, hnext, hleft⟩ := processFile_transfer htree hfile
  cases result with
  | error failure =>
    rw [← (processFile_error hfile).1] at hdone
    exact ⟨done, hdone, .inr ⟨source, dest, next, hnext, hleft⟩⟩
  | ok text =>
    cases processed_processFile hfile with
    | written _ hprocessed =>
      refine ⟨next, ?_, hleft⟩
      rw [hprocessed]
      exact processPairs_concat hdone hnext

theorem reached_processSources {mapping : FileMapping} {sources : List Text}
    {result : Except Failure Unit} (h : Replays config fuel start runner)
    (hsources : processSources config fuel mapping sources runner = some (left, result)) :
    Reached config fuel start left result := by
  induction sources generalizing runner with
  | nil =>
    cases hsources
    exact h
  | cons source sources ih =>
    rw [processSources] at hsources
    split at hsources
    · split at hsources
      · cases hsources
      · rename_i failure hfile
        cases hsources
        exact reached_processFile h hfile
      · rename_i next text hfile
        exact ih (reached_processFile h hfile) hsources
    · have hwarned : Replays config fuel start
          (runner.warn (.notAFile (sourcePath mapping.cwd source))) := h.congr rfl rfl
      exact ih hwarned hsources

omit [Codecs] in
theorem checkPatterns_keeps (cwd : Option Text) (runner : Runner) (patterns : List Text) :
    (checkPatterns cwd runner patterns).tree = runner.tree ∧
      (checkPatterns cwd runner patterns).record.processed = runner.record.processed := by
  induction patterns generalizing runner with
  | nil => exact ⟨rfl, rfl⟩
  | cons pattern patterns ih =>
    rw [checkPatterns]
    split
    · exact ih runner
    · split
      · exact ⟨rfl, rfl⟩
      · simp only
        split
        · exact ih (runner.warn (.sourceNotFound pattern))
        · exact ih runner

theorem reached_processMapping {mapping : FileMapping} {result : Except Failure Unit}
    (h : Replays config fuel start runner)
    (hmapping : processMapping config fuel mapping runner = some (left, result)) :
    Reached config fuel start left result := by
  obtain ⟨htree, hprocessed⟩ := checkPatterns_keeps mapping.cwd runner mapping.sources
  have hchecked := h.congr htree hprocessed
  simp only [processMapping] at hmapping
  split at hmapping
  · cases hmapping
    obtain ⟨done, hdone, hleft⟩ := hchecked
    exact ⟨done, hdone, .inl ⟨rfl, hleft⟩⟩
  · exact reached_processSources hchecked hmapping

theorem reached_processMappings {mappings : List FileMapping} {result : Except Failure Unit}
    (h : Replays config fuel start runner)
    (hmappings : processMappings config fuel mappings runner = some (left, result)) :
    Reached config fuel start left result := by
  induction mappings generalizing runner with
  | nil =>
    cases hmappings
    exact h
  | cons mapping mappings ih =>
    rw [processMappings] at hmappings
    split at hmappings
    · cases hmappings
    · rename_i failure hmapping
      cases hmappings
      exact reached_processMapping h hmapping
    · rename_i next hmapping
      exact ih (reached_processMapping h hmapping) hmappings

/-- A run that fails has done nothing if the options cannot be shown. -/
theorem aborted_run {failure : Failure} (h : run config fuel runner = some (left, .error failure)) :
    (failure = .unshowable ∧ left = runner) ∨
      Aborted config fuel runner.fresh left failure := by
  unfold run at h
  split at h
  · cases h
    exact .inl ⟨rfl, rfl⟩
  · split at h
    · cases h
    · rename_i failure' hmappings
      cases h
      exact .inr (reached_processMappings ⟨runner.fresh, rfl, rfl⟩ hmappings)
    · cases h

/-- A file that fails is not recorded, and no file changes but its destination: the files are as
before unless it leaves an empty one there. After a run that fails the files are those which its
record leaves when it is processed in order, with the same exception for the file that failed, if it
was a file that did; but if the options cannot be shown, then the run has done nothing and made no
record. -/
theorem sameFiles_iff_not_empties (config : Config) (fuel : Nat) (runner left : Runner)
    (failure : Failure) :
    (∀ source dest, processFile config fuel runner source dest = some (left, .error failure) →
        left.record.processed = runner.record.processed ∧
          (∀ place, File.target? runner.tree dest ≠ some place →
            left.tree.bytes? place = runner.tree.bytes? place) ∧
          (runner.tree.SameFiles left.tree ↔ ¬ Empties runner.tree dest failure)) ∧
      (run config fuel runner = some (left, .error failure) →
        (failure = .unshowable ∧ left = runner) ∨
          ∃ done,
            processPairs config fuel left.record.processed runner.fresh = some (done, .ok ()) ∧
            ((failure = .file .nullInPath ∧ done.tree.SameFiles left.tree) ∨
              ∃ source dest failed,
                processFile config fuel done source dest = some (failed, .error failure) ∧
                  (∀ place, File.target? done.tree dest ≠ some place →
                    left.tree.bytes? place = done.tree.bytes? place) ∧
                  (done.tree.SameFiles left.tree ↔ ¬ Empties done.tree dest failure))) := by
  constructor
  · intro source dest h
    exact ⟨(processFile_error h).1, fun _ => bytes?_of_error h, sameFiles_iff_of_error h⟩
  · intro h
    rcases aborted_run h with hnothing | ⟨done, hdone,
      ⟨hrefused, htree⟩ | ⟨source, dest, failed, hfailed, htree⟩⟩
    · exact .inl hnothing
    · exact .inr ⟨done, hdone, .inl ⟨hrefused, htree ▸ .refl done.tree⟩⟩
    · refine .inr ⟨done, hdone, .inr ⟨source, dest, failed, hfailed, ?_⟩⟩
      rw [← htree]
      exact ⟨fun _ => bytes?_of_error hfailed, sameFiles_iff_of_error hfailed⟩

end

/-- A site with two pages. -/
def twoPages (first second : Text) : Runner where
  tree :=
    { cwd := "/site"
      entries := [(["site"], .directory),
        (["site", "a"], .file (Encoding.encodeUtf8 first)),
        (["site", "b"], .file (Encoding.encodeUtf8 second))] }

/-- A configuration that prints its pages into a directory, in ASCII, with a global variable. -/
def printing (value : Text) : Config where
  encoding := "ascii"
  globals := ([("x", .scalar (.text value))] : List (Text × Value))
  files := [⟨["a", "b"], "out/", none⟩]

/-- A second page whose directive has malformed variables. -/
def malformedPage : Text := "@@include(\"a\", {x})"

/-- The expanded text of the first page is not written to the second one, but that is emptied. -/
theorem effect_twoPages :
    effect (processFile (printing "é") 2 (twoPages "@@x" "old") "a" "b") =
      some ((twoPages "@@x" "").tree,
        .error (.file (.encoding (.unencodable .ascii 'é' 0 1)))) := by
  cbv

theorem bytes_twoPages (first second : Text) :
    (twoPages first second).tree.bytes? (["site", "b"] : List Text) =
      some (Encoding.encodeUtf8 second) := by
  cbv

/-- The second page fails: the first one has been printed, and nothing else has changed. If a page
fails because of a character that is not in ASCII, then the file to which it is written changes. -/
theorem sameFiles_twoPages :
    (∃ left failure,
      run (printing "1") 2 (twoPages "@@x" malformedPage) = some (left, .error failure) ∧
        left.record.processed = ([("a", "out/a")] : List (Text × Text)) ∧
        ∃ done,
          processPairs (printing "1") 2 left.record.processed (twoPages "@@x" malformedPage).fresh =
              some (done, .ok ()) ∧
            done.tree.SameFiles left.tree) ∧
      ∃ left failure,
        processFile (printing "é") 2 (twoPages "@@x" "old") "a" "b" = some (left, .error failure) ∧
          ¬ (twoPages "@@x" "old").tree.SameFiles left.tree := by
  constructor
  · have houtline : (run (printing "1") 2 (twoPages "@@x" malformedPage)).map
          (fun outcome => (outcome.1.record.processed, outcome.2)) =
        some (([("a", "out/a")] : List (Text × Text)),
          .error (.directive (.malformed malformedPage .noName ⟨1, 1, 2⟩))) := by
      cbv
    obtain ⟨⟨left, result⟩, hrun, heq⟩ := Option.map_eq_some_iff.mp houtline
    obtain ⟨hprocessed, rfl⟩ := Prod.mk.inj heq
    rcases (sameFiles_iff_not_empties _ _ _ _ _).2 hrun with
      ⟨hunshowable, -⟩ | ⟨done, hdone, ⟨hrefused, -⟩ | ⟨source, dest, failed, -, -, hsame⟩⟩
    · cases hunshowable
    · cases hrefused
    · refine ⟨left, _, hrun, hprocessed, done, hdone, hsame.mpr fun hempties => ?_⟩
      exact absurd hempties.1 (by decide)
  · obtain ⟨left, hfile, -⟩ := effect_eq_some_iff.mp effect_twoPages
    have hempties : Empties (twoPages "@@x" "old").tree "b"
        (.file (.encoding (.unencodable .ascii 'é' 0 1))) := by
      refine ⟨rfl, (["site", "b"] : List Text), by cbv, ?_⟩
      rw [bytes_twoPages]
      decide
    refine ⟨left, _, hfile, fun hsame => ?_⟩
    exact ((sameFiles_iff_not_empties _ _ _ _ _).1 _ _ hfile).2.2.mp hsame hempties

/-- The first page has a character that is not in ASCII: the file to which it is written is lost. -/
theorem processFile_twoPages :
    ∃ left failure,
      processFile (printing "é") 2 (twoPages "@@x" "old") "a" "b" = some (left, .error failure) ∧
        (twoPages "@@x" "old").tree.bytes? (["site", "b"] : List Text) =
          some (Encoding.encodeUtf8 "old") ∧
        left.tree.bytes? (["site", "b"] : List Text) = some [] := by
  obtain ⟨left, hfile, htree⟩ := effect_eq_some_iff.mp effect_twoPages
  exact ⟨left, _, hfile, bytes_twoPages _ _, htree ▸ bytes_twoPages _ _⟩

end Runner

end Splice
