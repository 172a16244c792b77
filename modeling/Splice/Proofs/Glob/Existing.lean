import Splice.Proofs.Glob.Lists
import Splice.Proofs.Glob.Matching
import Splice.Proofs.Tree.Closed

/-!
# What a pattern finds is there

A pattern finds what is in the tree, apart from paths that end with a slash: any way down leads from
a directory to itself even if there is none.

* `Tree.locate_join` — where a path leads that is seen from a directory;
* `Glob.has_of_mem_search` — what is found is there, unless its path ends with a slash; and
* `Glob.has_of_mem_expandAll` — the same for what a list of patterns finds.
-/

namespace Splice

open Splice.Path (IsName)

namespace Tree

variable {tree : Tree} {directory path : Text} {place : Place}

/-- The place of a path that is seen from a directory. -/
theorem placeOf_join (tree : Tree) (directory : Text) (hpath : Path.isAbsolute path = false) :
    tree.placeOf (Path.join directory path) =
      walk (tree.placeOf directory) (Text.pieces '/' path) := by
  have hstart : tree.startOf (Path.join directory path) = tree.startOf directory := by
    by_cases hdirectory : directory = []
    · subst hdirectory
      have hjoin : Path.join [] path = path := by simp [Path.join]
      rw [hjoin, startOf, hpath, startOf]
      rfl
    · rw [startOf, startOf, Path.isAbsolute_join_relative hdirectory hpath]
  rw [placeOf_eq_walk_names, placeOf_eq_walk_names, Path.names_join hpath, walk_append, hstart]
  exact walk_filter _ _

/-- A path that is seen from a directory is followed from there. -/
theorem locate_join (hdirectory : directory ≠ []) (h : tree.locate directory = .ok place)
    (hnull : '\x00' ∉ path) (hpath : Path.isAbsolute path = false) :
    tree.locate (Path.join directory path) = tree.follow place (Text.pieces '/' path) := by
  unfold locate at h
  split at h
  · cases h
  · rename_i hproper
    have hnull' : '\x00' ∉ directory := fun hmem => hproper (.inr hmem)
    -- The slash behind the directory is its own last one, or it is added.
    obtain ⟨front, hfront, hjoin⟩ : ∃ front, tree.follow (tree.startOf directory)
          (Text.pieces '/' front) = .ok place ∧ Path.join directory path =
            front ++ '/' :: path := by
      by_cases hlast : directory.getLast? = some '/'
      · obtain ⟨front, rfl⟩ := List.getLast?_eq_some_iff.mp hlast
        refine ⟨front, ?_, by simp [Path.join, hpath]⟩
        have hpieces : Text.pieces '/' (front ++ ['/']) = Text.pieces '/' front ++ [[]] :=
          Text.pieces_append '/' front []
        rw [hpieces, follow_append, bind_eq_ok_iff] at h
        obtain ⟨next, hnext, hstays⟩ := h
        obtain ⟨rfl, -⟩ := (follow_stays_iff (.inl rfl)).mp hstays
        exact hnext
      · exact ⟨directory, h, by simp [Path.join, hpath, hdirectory, hlast]⟩
    have hstart : tree.startOf (Path.join directory path) = tree.startOf directory := by
      rw [startOf, startOf, Path.isAbsolute_join_relative hdirectory hpath]
    have hjoined :
        ¬ ((Path.join directory path).isEmpty = true ∨ '\x00' ∈ Path.join directory path) := by
      rw [Path.join, hpath]
      simp only [Bool.false_eq_true, if_false]
      split <;> simp [hdirectory, hnull, hnull']
    rw [locate, if_neg hjoined, hstart, hjoin, Text.pieces_append, follow_append, hfront]
    rfl

/-- Names lead down to what is there. -/
theorem follow_names (hclosed : tree.Closed) {names : List Text}
    (hnames : ∀ name ∈ names, IsName name) (hthere : (tree.entry? (place ++ names)).isSome) :
    tree.follow place names = .ok (place ++ names) := by
  induction names using List.reverseRecOn with
  | nil => simp [follow]
  | append_singleton names name ih =>
    rw [← List.append_assoc] at hthere ⊢
    have hdirectory := hclosed.directory hthere
    have hfront := ih (fun other hother => hnames other (List.mem_append_left _ hother))
      (by rw [hdirectory]; rfl)
    rw [follow_append, hfront]
    exact (follow_name_iff (hnames name (by simp))).mpr ⟨rfl, hdirectory, hthere⟩

end Tree

namespace Glob

open Wildcard (isPattern)

variable {tree : Tree} {base directory path pattern name way : Text} {place : Place}
  {names : List Text} {directoriesOnly : Bool} {fuel : Nat}

/-! ### Paths in a directory -/

/-- What is below a directory has a path that is seen from it. -/
theorem has_within (hclosed : tree.Closed) (hplace : directoryPlace? tree directory = some place)
    (hnames : ∀ name ∈ names, IsName name) (hne : names ≠ [])
    (hthere : (tree.entry? (place ++ names)).isSome) :
    tree.has (within directory (Path.ofNames names)) = true := by
  have hsteps : ∀ name ∈ names, Path.IsStep name := fun name hname => (hnames name hname).toIsStep
  have hpath := Path.ofNames_ne_nil hsteps hne
  have hrelative := Path.isAbsolute_ofNames hsteps
  have hnull : '\x00' ∉ Path.ofNames names := by
    rw [Path.mem_ofNames_iff (by decide)]
    rintro ⟨name, hname, hmem⟩
    exact (hclosed.toProper.isName_of_entry? hthere (List.mem_append_right _ hname)).2 hmem
  unfold directoryPlace? at hplace
  split at hplace
  · rename_i target hlocate
    split at hplace
    · cases hplace
      have hfollow := Tree.follow_names hclosed hnames hthere
      rw [← Text.pieces_ofNames hsteps hne] at hfollow
      -- From the current directory the names are followed as they are, from another one behind it.
      have hlocated :
          tree.locate (within directory (Path.ofNames names)) = .ok (place ++ names) := by
        by_cases hnil : directory = []
        · subst hnil
          have hhere : place = tree.here := Tree.locate_eq_placeOf hlocate
          rw [within_nil, Tree.locate, if_neg (by simp [hpath, hnull]), Tree.startOf, hrelative,
            if_neg (by simp), ← hhere, hfollow, Text.pieces_ofNames hsteps hne]
        · have hlist : listPath directory = directory := by simp [listPath, hnil]
          rw [hlist] at hlocate
          have hwithin : within directory (Path.ofNames names) =
              Path.join directory (Path.ofNames names) := by
            simp [within, hnil, hpath]
          rw [hwithin, Tree.locate_join hnil hlocate hnull hrelative, hfollow,
            Text.pieces_ofNames hsteps hne]
      rw [Tree.has, Tree.find?, hlocated]
      exact hthere
    · cases hplace
  · cases hplace

theorem directoryPlace?_eq (tree : Tree) (directory : Text) :
    directoryPlace? tree directory =
      if tree.isDirectory (listPath directory) then some (tree.placeOf directory) else none := by
  have hplace : tree.placeOf (listPath directory) = tree.placeOf directory := by
    unfold listPath
    split
    · rename_i hnil
      rw [List.isEmpty_iff.mp hnil]
      rfl
    · rfl
  unfold directoryPlace? Tree.isDirectory Tree.find?
  cases hlocate : tree.locate (listPath directory) with
  | error fault => simp
  | ok place =>
    rw [← hplace, Tree.locate_eq_placeOf hlocate]
    simp

/-- What the last name of a pattern finds is there, unless it is the directory itself. -/
theorem has_of_mem_lastName (hclosed : tree.Closed)
    (h : way ∈ lastName tree directoriesOnly directory name) (hway : way ≠ []) :
    tree.has (within directory way) = true := by
  cases mem_lastName_iff.mp h with
  | here => exact absurd rfl hway
  | below hplace hbelow =>
    obtain ⟨names, hne, hnames, rfl, hthere⟩ := exists_entry_of_mem_below hclosed.toProper hbelow
    exact has_within hclosed hplace hnames hne hthere
  | matching hwild _ hmatching =>
    obtain ⟨place, hplace, hname, -⟩ := (mem_namesMatching_iff hwild).mp hmatching
    have hproperName := isName_of_mem_namesAt hclosed.toProper hname
    rw [← Path.ofNames_singleton way]
    exact has_within hclosed hplace (by simpa using hproperName) (List.cons_ne_nil _ _)
      (entry?_of_mem_namesAt hname)
  | itself _ hinside => rwa [isInside, List.isEmpty_eq_false_iff.mpr hway] at hinside

/-! ### Whole patterns -/

theorem within_join (hpath : path ≠ []) (base directory : Text) :
    within base (Path.join directory path) = within (within base directory) path := by
  have hjoin := Path.join_ne_nil hpath directory
  by_cases hdirectory : directory = []
  · subst hdirectory
    rw [Path.join_nil]
    by_cases hbase : base = [] <;> simp [within, hbase]
  · by_cases hbase : base = []
    · subst hbase
      simp [within, hpath, hdirectory]
    · have hwithin : within base directory ≠ [] := by
        simp [within, hbase, hdirectory, Path.join_ne_nil hdirectory]
      simp only [within, List.isEmpty_iff, hbase, hjoin, hpath, hdirectory, if_false,
        Path.join_ne_nil hdirectory]
      exact Path.join_assoc hdirectory base path

/-- What a pattern finds is there, unless its path ends with a slash. -/
theorem has_of_mem_search (hclosed : tree.Closed)
    (h : path ∈ search tree base fuel directoriesOnly pattern) :
    tree.has (within base path) = true ∨ Path.leaf path = [] := by
  cases fuel with
  | zero => exact absurd h List.not_mem_nil
  | succ fuel =>
    cases mem_search_succ_iff.mp h with
    | itself _ hfound =>
      by_cases hleaf : Path.leaf path = []
      · exact .inr hleaf
      · rw [isFound, List.isEmpty_eq_false_iff.mpr hleaf] at hfound
        exact .inl hfound
    | @inside directory way _ _ hway =>
      by_cases hne : way = []
      · rw [hne]
        exact .inr (Path.leaf_join_eq_nil rfl directory)
      · rw [within_join hne]
        exact .inl (has_of_mem_lastName hclosed hway hne)

theorem mem_find_of_mem_expand {cwd : Option Text} (h : path ∈ expand tree cwd pattern) :
    path ∈ find tree (cwd.getD []) pattern :=
  List.mem_mergeSort.mp h

theorem has_of_mem_expandAll (hclosed : tree.Closed) {cwd : Option Text} {patterns : List Text}
    (h : path ∈ expandAll tree cwd patterns) :
    tree.has (within (cwd.getD []) path) = true ∨ Path.leaf path = [] := by
  obtain ⟨pattern, -, -, hfound⟩ := exists_of_mem_expandAll h
  exact has_of_mem_search hclosed (mem_search_of_mem_find (mem_find_of_mem_expand hfound))

end Glob

end Splice
