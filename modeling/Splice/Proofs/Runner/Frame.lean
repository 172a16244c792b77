import Splice.Proofs.Expansion.Asking
import Splice.Proofs.Glob.Growing
import Splice.Proofs.Runner.Between

/-!
# Runs that do not feed back

If no document of a run depends on what the run writes, then the same files are found all the time,
and each is expanded to the same bytes.

* `Runner.Asked` — what is asked when documents are delivered one after the other;
* `Runner.Separate`, `Runner.Independent` — no document of a run depends on what the run writes; and
* `Runner.Between.pairsIn_eq`, `Runner.Between.bytesOf?_eq` — then nothing that a document is made
  of changes.
-/

namespace Splice.Runner

open Expansion (Request Asks SameAnswer)
open Splice.Path (Straight)

variable {config : Config} {fuel : Nat} {tree next left : Tree} {source dest path : Text}
  {pairs processed : List (Text × Text)} {bytes : Bytes}

/-! ### Sources -/

theorem placeOf_sourcePath (tree : Tree) (cwd : Option Text) (source : Text) :
    tree.placeOf (sourcePath cwd source) = tree.placeOf (Glob.within (cwd.getD []) source) := by
  cases cwd with
  | none => rfl
  | some directory =>
    by_cases hdirectory : directory = []
    · simp [sourcePath, Glob.within, hdirectory]
    · by_cases hsource : source = []
      · subst hsource
        have hpath : sourcePath (some directory) [] = Path.join directory [] := by
          simp [sourcePath, hdirectory]
        rw [hpath, Tree.placeOf_join tree directory rfl, Option.getD_some, Glob.within_nil_right]
        rfl
      · simp [sourcePath, Glob.within, hdirectory, hsource]

theorem straight_sourcePath {cwd : Option Text} (hcwd : Straight (cwd.getD []))
    (hsource : Straight source) :
    Straight (sourcePath cwd source) := by
  unfold sourcePath
  split
  · exact hsource
  · split
    · exact hsource
    · exact hcwd.join hsource

variable [Codecs]

/-! ### Independent runs -/

/-- Something is asked when documents are delivered one after the other: by the expansion of one of
them, on the tree that those before it leave. -/
inductive Asked (config : Config) (fuel : Nat) (request : Request) :
    Tree → List (Text × Text) → Prop
  /-- The first document asks it. -/
  | first {tree : Tree} {source dest document : Text} {pairs : List (Text × Text)} :
      File.read tree source config.encoding = .ok document →
      Asks config tree document source request →
      Asked config fuel request tree ((source, dest) :: pairs)
  /-- A later document asks it. -/
  | later {tree next : Tree} {source dest : Text} {pairs : List (Text × Text)} :
      Delivered config fuel tree source dest next → Asked config fuel request next pairs →
      Asked config fuel request tree ((source, dest) :: pairs)

theorem Asked.append {request : Request} (hdelivers : Delivers config fuel tree pairs next)
    {rest : List (Text × Text)} (h : Asked config fuel request next rest) :
    Asked config fuel request tree (pairs ++ rest) := by
  induction hdelivers with
  | nil => exact h
  | cons hfirst _ ih => exact .later hfirst (ih h)

/-- No source of a run that leads from one tree to another, and no include, is among what the run
writes. -/
structure Separate (config : Config) (fuel : Nat) (tree left : Tree)
    (processed : List (Text × Text)) : Prop where
  /-- No pattern, and no directory from which patterns are seen, has double dots. -/
  straight : ∀ mapping ∈ config.files, Straight (mapping.cwd.getD []) ∧
    ∀ pattern ∈ mapping.sources, Straight pattern
  /-- The destinations are different files. -/
  different : (processed.map fun pair => tree.placeOf pair.2).Nodup
  /-- No destination has the ending of templates. -/
  ending : ∀ pair ∈ processed, Text.hasTail Mustache.ending (Path.plain pair.2) = false
  /-- No pattern finds a destination or a directory that has been made for one. -/
  sources : ∀ mapping ∈ config.files, ∀ pattern ∈ mapping.sources,
    Glob.Avoids (Touched tree left processed) left mapping.cwd
      ((Glob.excluded? pattern).getD pattern)
  /-- No include does. -/
  includes : ∀ pattern, Asked config fuel (.files pattern) tree processed →
    Glob.Avoids (Touched tree left processed) left none pattern

/-- No document of a run depends on what the run writes. -/
structure Independent (config : Config) (fuel : Nat) (tree left : Tree)
    (processed : List (Text × Text)) : Prop extends Separate config fuel tree left processed where
  /-- The templates that are embedded are the same before and after the run. -/
  templates : ∀ key, Asked config fuel (.template key) tree processed →
    Mustache.loadEmbedded left key = Mustache.loadEmbedded tree key

section

variable {other : Tree} (hclosed : tree.Closed)
  (hdelivers : Delivers config fuel tree processed left)
include hclosed hdelivers

/-- A file that is not changed is read alike. -/
theorem Between.read_eq (h : Between tree left processed next) (hstraight : Straight path)
    (hplace : ¬ Touched tree left processed (left.placeOf path)) (hfile : left.isFile path = true)
    (encoding : Text) : File.read next path encoding = File.read left path encoding := by
  have hapart := h.apart hclosed hdelivers
  obtain ⟨place, bytes, hlocate, hentry⟩ := Tree.isFile_iff.mp hfile
  refine File.read_congr ?_ ?_ encoding
  · rw [Tree.has, Tree.find?, hlocate]
    show (left.entry? place).isSome = true
    rw [hentry]
    rfl
  · rw [hapart.find?_eq hstraight]
    rwa [← hapart.placeOf]

/-- What an include that avoids what is changed asks has always the same answer. -/
theorem Between.sameAnswer_files (hnext : Between tree left processed next)
    (hother : Between tree left processed other) {pattern : Text} (hstraight : Straight pattern)
    (havoids : Glob.Avoids (Touched tree left processed) left none pattern) :
    SameAnswer config next other (.files pattern) := by
  have hfiles {next : Tree} (h : Between tree left processed next) :
      Glob.expandFiles next none pattern = Glob.expandFiles left none pattern :=
    Glob.expandFiles_eq_of_avoids (h.apart hclosed hdelivers) h.below hstraight havoids
  refine ⟨(hfiles hother).trans (hfiles hnext).symm, fun file hfile => ?_⟩
  rw [hfiles hnext] at hfile
  obtain ⟨hfound, hisFile⟩ := Glob.mem_expandFiles.mp hfile
  have hleft := (hdelivers.grows hclosed).2
  have hstraightFile :=
    Glob.straight_of_mem_search hleft hstraight (Glob.mem_search_of_mem_find hfound)
  have hplace : ¬ Touched tree left processed (left.placeOf file) :=
    havoids file (List.mem_mergeSort.mpr hfound)
  rw [hother.read_eq hclosed hdelivers hstraightFile hplace hisFile,
    hnext.read_eq hclosed hdelivers hstraightFile hplace hisFile]

end

/-- What the patterns of a run find is not changed. -/
theorem Independent.of_mem_expandAll (hind : Independent config fuel tree left processed)
    (hleft : left.Closed) {mapping : FileMapping} (hmapping : mapping ∈ config.files)
    (hsource : source ∈ Glob.expandAll left mapping.cwd mapping.sources) :
    Straight (sourcePath mapping.cwd source) ∧
      ¬ Touched tree left processed (left.placeOf (sourcePath mapping.cwd source)) := by
  obtain ⟨hcwd, hpatterns⟩ := hind.straight mapping hmapping
  refine ⟨straight_sourcePath hcwd (Glob.straight_of_mem_expandAll hleft hpatterns hsource), ?_⟩
  obtain ⟨pattern, hpattern, hadds, hfound⟩ := Glob.exists_of_mem_expandAll hsource
  have havoids := hind.sources mapping hmapping pattern hpattern
  rw [hadds, Option.getD_none] at havoids
  rw [placeOf_sourcePath]
  exact havoids source hfound

/-- A mapping finds the same files all the time. -/
theorem Between.pairsIn_eq (hclosed : tree.Closed)
    (hdelivers : Delivers config fuel tree processed left)
    (hind : Independent config fuel tree left processed) (h : Between tree left processed next)
    {mapping : FileMapping} (hmapping : mapping ∈ config.files) :
    pairsIn next mapping = pairsIn left mapping := by
  have hleft := (hdelivers.grows hclosed).2
  have hapart := h.apart hclosed hdelivers
  obtain ⟨hcwd, hpatterns⟩ := hind.straight mapping hmapping
  unfold pairsIn
  rw [Glob.expandAll_eq_of_avoids hapart h.below hcwd hpatterns (hind.sources mapping hmapping)]
  unfold pairsOf
  congr 1
  refine List.filter_congr fun source hsource => ?_
  obtain ⟨hstraight, hplace⟩ := hind.of_mem_expandAll hleft hmapping hsource
  rw [Tree.isFile, Tree.isFile, hapart.find?_eq hstraight]
  rwa [← hapart.placeOf]

/-! ### Documents -/

/-- The bytes to which the document of a source is expanded. -/
def bytesOf? (config : Config) (fuel : Nat) (tree : Tree) (source : Text) : Option Bytes :=
  match File.read tree source config.encoding with
  | .error _ => none
  | .ok document =>
      match Expansion.expandDocument config tree fuel document source with
      | some (_, .ok text) => (File.encode config.encoding text).toOption
      | _ => none

theorem bytesOf?_eq_some_iff :
    bytesOf? config fuel tree source = some bytes ↔
      ∃ document warnings text, File.read tree source config.encoding = .ok document ∧
        Expansion.expandDocument config tree fuel document source = some (warnings, .ok text) ∧
        File.encode config.encoding text = .ok bytes := by
  unfold bytesOf?
  constructor
  · intro h
    split at h
    · cases h
    · rename_i document hread
      split at h
      · rename_i warnings text hexpand
        exact ⟨document, warnings, text, hread, hexpand, toOption_eq_some_iff.mp h⟩
      · cases h
  · intro ⟨document, warnings, text, hread, hexpand, hencode⟩
    simp only [hread, hexpand, hencode]
    rfl

theorem Delivered.exists_bytes (hclosed : tree.Closed)
    (h : Delivered config fuel tree source dest left) :
    ∃ bytes, bytesOf? config fuel tree source = some bytes ∧ tree.Wrote dest bytes left := by
  obtain ⟨document, warnings, text, hread, hexpand, hwrite⟩ := h
  obtain ⟨bytes, hencode, hwrote⟩ := File.wrote_of_write hclosed hwrite
  exact ⟨bytes, bytesOf?_eq_some_iff.mpr ⟨document, warnings, text, hread, hexpand, hencode⟩,
    hwrote⟩

/-- A document that can be expanded is delivered where something can be written. -/
theorem exists_delivered (hclosed : tree.Closed) (hwritable : tree.Writable dest)
    (h : bytesOf? config fuel tree source = some bytes) :
    ∃ left, Delivered config fuel tree source dest left ∧ tree.Wrote dest bytes left := by
  obtain ⟨document, warnings, text, hread, hexpand, hencode⟩ := bytesOf?_eq_some_iff.mp h
  have hname := (File.read_eq_ok_iff.mp hread).1
  obtain ⟨left, hwrite⟩ := File.exists_write hclosed hwritable hname hencode
  obtain ⟨bytes', hencode', hwrote⟩ := File.wrote_of_write hclosed hwrite
  rw [hencode] at hencode'
  cases hencode'
  exact ⟨left, ⟨document, warnings, text, hread, hexpand, hwrite⟩, hwrote⟩

/-- A document that depends on nothing that a run writes is expanded to the same bytes all the
time. -/
theorem Between.bytesOf?_eq (hclosed : tree.Closed)
    (hdelivers : Delivers config fuel tree processed left)
    (hind : Independent config fuel tree left processed) {before rest : List (Text × Text)}
    (hprocessed : processed = before ++ (source, dest) :: rest)
    (hbefore : Delivers config fuel tree before next) (hnext : Between tree left processed next)
    (hstraight : Straight source) (hplace : ¬ Touched tree left processed (left.placeOf source))
    (hfile : left.isFile source = true) {other : Tree}
    (hother : Between tree left processed other) :
    bytesOf? config fuel other source = bytesOf? config fuel next source := by
  have hread : File.read other source config.encoding = File.read next source config.encoding := by
    rw [hother.read_eq hclosed hdelivers hstraight hplace hfile,
      hnext.read_eq hclosed hdelivers hstraight hplace hfile]
  unfold bytesOf?
  rw [hread]
  cases hdocument : File.read next source config.encoding with
  | error e => rfl
  | ok document =>
    have hcwd : other.cwd = next.cwd := hother.above.cwd.trans hnext.above.cwd.symm
    have hsame : Expansion.expandDocument config other fuel document source =
        Expansion.expandDocument config next fuel document source := by
      -- An expansion depends on nothing but the answers to what it asks for.
      refine Expansion.expandDocument_congr hcwd (fun request hasks => ?_) fuel
      have hasked : Asked config fuel request tree processed := by
        rw [hprocessed]
        exact .append hbefore (.first hdocument hasks)
      cases request with
      | files pattern =>
        exact hnext.sameAnswer_files hclosed hdelivers hother (hasks.straight hnext.closed.absolute)
          (hind.includes pattern hasked)
      | template key =>
        have hload {next : Tree} (h : Between tree left processed next) :
            Mustache.loadEmbedded next key = Mustache.loadEmbedded tree key :=
          h.loadEmbedded_eq hclosed hdelivers hind.ending (hind.templates key hasked)
        exact (hload hother).trans (hload hnext).symm
    simp only [hsame]

end Splice.Runner
