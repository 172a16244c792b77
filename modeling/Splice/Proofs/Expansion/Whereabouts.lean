import Splice.Proofs.Expansion.Fuel
import Splice.Proofs.Glob.Existing
import Splice.Proofs.Path.Joining

/-!
# Where a document is

The path of a document matters to its expansion in two ways: includes are looked for in its
directory, and the way to the root of the documents begins there. Both are the same for all paths
that lead to the document, however they are spelled.

* `Path.Alike` — relative paths lead from two directories to the same places;
* `Path.alike_parent` — the directories of two paths to one file are alike; and
* `Expansion.expandDocument_eq_of_absolute_eq` — a document is expanded alike under both paths.
-/

namespace Splice

open Splice.Path (IsName)

/-! ### The directory of a file -/

/-- Relative paths lead from both directories to the same places. -/
def Path.Alike (cwd directory other : Text) : Prop :=
  ∀ path, Path.isAbsolute path = false →
    Path.absolute cwd (Path.join directory path) = Path.absolute cwd (Path.join other path)

variable {tree : Tree} {file other path : Text}

/-- A file stands in the directory that its path names. -/
theorem Tree.placeOf_eq_concat (tree : Tree) (h : IsName (Path.leaf file)) :
    tree.placeOf file = tree.placeOf (Path.parent file) ++ [Path.leaf file] := by
  have hstart : tree.startOf (Path.parent file) = tree.startOf file := by
    rw [startOf, startOf, Path.isAbsolute_parent]
  rw [placeOf_eq_walk_names, placeOf_eq_walk_names, hstart, Path.names_eq_append,
    Path.names_of_isStep h.toIsStep, walk_concat, stepTo_name h]

/-- A path that is seen from the directory of a file begins at the root at which the file's does. -/
theorem Path.root_join_parent {cwd : Text} (hcwd : isAbsolute cwd = true) (file : Text)
    (hpath : isAbsolute path = false) :
    root (join cwd (join (parent file) path)) = root (join cwd file) := by
  cases hfile : isAbsolute file with
  | true =>
    have hparent : isAbsolute (parent file) = true := (isAbsolute_parent file).trans hfile
    have hjoin : join cwd (join (parent file) path) = join (parent file) path :=
      if_pos (isAbsolute_join hparent path)
    have hself : join cwd file = file := if_pos hfile
    rw [hjoin, hself, root_join hpath hparent, root_parent]
  | false =>
    have hparent : isAbsolute (parent file) = false := (isAbsolute_parent file).trans hfile
    have hinside : isAbsolute (join (parent file) path) = false := by
      by_cases hnil : parent file = []
      · rwa [hnil, join_nil]
      · rwa [isAbsolute_join_relative hnil hpath]
    rw [root_join hinside hcwd, root_join hfile hcwd]

/-- An absolute path is settled by its root and its place. -/
theorem Tree.absolute_eq_iff (hcwd : Path.isAbsolute tree.cwd = true) (path other : Text) :
    Path.absolute tree.cwd path = Path.absolute tree.cwd other ↔
      Path.root (Path.join tree.cwd path) = Path.root (Path.join tree.cwd other) ∧
        tree.placeOf path = tree.placeOf other := by
  have hroot (path : Text) : Path.IsRoot (Path.root (Path.join tree.cwd path)) :=
    Path.isRoot_root (Path.isAbsolute_join hcwd path)
  rw [absolute_eq_rooted hcwd, absolute_eq_rooted hcwd]
  exact Path.rooted_inj (hroot path) (hroot other) (isName_of_mem_placeOf hcwd path)
    (isName_of_mem_placeOf hcwd other)

/-- Two paths that lead to the same file name directories that are alike. -/
theorem Path.alike_parent (hcwd : isAbsolute tree.cwd = true) (hfile : IsName (leaf file))
    (hother : IsName (leaf other)) (h : absolute tree.cwd file = absolute tree.cwd other) :
    Alike tree.cwd (parent file) (parent other) := by
  intro path hpath
  obtain ⟨hroot, hplace⟩ := (tree.absolute_eq_iff hcwd file other).mp h
  have hparent : tree.placeOf (parent file) = tree.placeOf (parent other) := by
    rw [tree.placeOf_eq_concat hfile, tree.placeOf_eq_concat hother] at hplace
    exact (List.append_inj' hplace rfl).1
  refine (tree.absolute_eq_iff hcwd _ _).mpr ⟨?_, ?_⟩
  · rw [root_join_parent hcwd file hpath, root_join_parent hcwd other hpath, hroot]
  · rw [tree.placeOf_join _ hpath, tree.placeOf_join _ hpath, hparent]

/-! ### Documents of directories that are alike -/

namespace Expansion

section

variable [Codecs]
variable {config : Config} {directory directory' : Text}

omit [Codecs] in
theorem resolvePath_alike (h : Path.Alike tree.cwd directory directory') (path : Text) :
    resolvePath config tree.cwd path directory = resolvePath config tree.cwd path directory' := by
  unfold resolvePath
  cases hpath : Path.isAbsolute path with
  | true => rfl
  | false =>
    by_cases hbase : config.includesDir.isEmpty = true
    · simp [hbase, h path hpath]
    · simp [hbase]

/-- What is included stands in directories of its own, so only its path is looked for from here. -/
theorem including_alike (h : Path.Alike tree.cwd directory directory') (depth : Nat)
    (directive : Directive) (fuel : Nat) :
    including config tree directory depth directive fuel =
      including config tree directory' depth directive fuel := by
  simp only [including, includeDirective, resolvePath_alike h]

/-- Documents of directories that are alike are expanded alike. -/
theorem expandIncludes_alike (h : Path.Alike tree.cwd directory directory') (fuel depth : Nat)
    (document : Text) :
    expandIncludes config tree fuel directory depth document =
      expandIncludes config tree fuel directory' depth document := by
  induction fuel generalizing document with
  | zero => rfl
  | succ fuel ih =>
    cases hfind : Directive.find? config.delimiters document with
    | none => rw [expandIncludes_done config tree hfind, expandIncludes_done config tree hfind]
    | some directive =>
      rw [expandIncludes_succ config tree hfind, expandIncludes_succ config tree hfind,
        including_alike h]
      exact Expand.andThen_congr fun _ contents _ => ih (directive.splice contents)

omit [Codecs] in
theorem docrootOf_eq (h : Path.absolute tree.cwd file = Path.absolute tree.cwd other) :
    docrootOf config tree file = docrootOf config tree other := by
  simp only [docrootOf, Path.toDocroot, h]

/-- The expansion of a document depends on where the document is, not on how its path is spelled. -/
theorem expandDocument_eq_of_absolute_eq (config : Config) (fuel : Nat) (document : Text)
    (hcwd : Path.isAbsolute tree.cwd = true) (hfile : IsName (Path.leaf file))
    (hother : IsName (Path.leaf other))
    (h : Path.absolute tree.cwd file = Path.absolute tree.cwd other) :
    expandDocument config tree fuel document file =
      expandDocument config tree fuel document other := by
  have hdocroot : docrootOf config tree file = docrootOf config tree other := docrootOf_eq h
  have halike := Path.alike_parent hcwd hfile hother h
  unfold expandDocument
  rw [hdocroot]
  exact Expand.andThen_congr fun _ text _ => expandIncludes_alike halike fuel 0 text

end

/-- A site with a page beside the file that it includes. -/
def neighbours : Tree where
  cwd := "/site"
  entries := [(["site"], .directory), (["site", "docs"], .directory),
    (["site", "docs", "page"], .file (Encoding.encodeUtf8 "@@docroot@@include(\"x\")")),
    (["site", "docs", "x"], .file (Encoding.encodeUtf8 "beside"))]

/-- The page is named from the working directory, or by a roundabout way from the root. -/
theorem expandDocument_neighbours :
    Path.isAbsolute neighbours.cwd = true ∧ IsName (Path.leaf "docs/page") ∧
      IsName (Path.leaf "/site/../site//./docs/new/..//page") ∧
      Path.absolute neighbours.cwd "docs/page" =
        Path.absolute neighbours.cwd "/site/../site//./docs/new/..//page" ∧
      expandDocument {} neighbours 9 "@@docroot@@include(\"x\")" "docs/page" =
        expandDocument {} neighbours 9 "@@docroot@@include(\"x\")"
          "/site/../site//./docs/new/..//page" := by
  have hfile : IsName (Path.leaf "docs/page") := by decide
  have hother : IsName (Path.leaf "/site/../site//./docs/new/..//page") := by decide
  have habsolute : Path.absolute neighbours.cwd "docs/page" =
      Path.absolute neighbours.cwd "/site/../site//./docs/new/..//page" := by decide
  exact ⟨rfl, hfile, hother, habsolute,
    expandDocument_eq_of_absolute_eq {} 9 _ rfl hfile hother habsolute⟩

end Expansion

end Splice
