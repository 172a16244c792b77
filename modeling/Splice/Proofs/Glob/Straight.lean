import Splice.Proofs.Glob.Existing

/-!
# Patterns without double dots

A pattern without double dots finds paths without them, so that these lead straight down from the
directory from which they are seen.

* `Path.Straight.join`, `Path.Straight.parent` — paths without double dots; and
* `Glob.straight_of_mem_search`, `Glob.not_straight_of_mem_search` — what patterns find without and
  with double dots.
-/

namespace Splice

open Splice.Path (IsName)

namespace Path

variable {directory path name : Text} {names : List Text}

/-! ### Paths without double dots -/

theorem straight_iff : Straight path ↔ ['.', '.'] ∉ Path.names path := by
  rw [Straight, Path.names, List.mem_filter]
  simp

theorem straight_ofNames (h : ∀ name ∈ names, IsName name) : Straight (ofNames names) := by
  rw [straight_iff, names_ofNames fun name hname => (h name hname).toIsStep]
  intro hmem
  exact (h _ hmem).ne_dots rfl

theorem Straight.join (hdirectory : Straight directory) (hpath : Straight path) :
    Straight (Path.join directory path) := by
  cases habsolute : isAbsolute path with
  | true =>
    rw [Path.join, if_pos habsolute]
    exact hpath
  | false =>
    rw [straight_iff] at hdirectory hpath ⊢
    rw [names_join habsolute, List.mem_append, not_or]
    exact ⟨hdirectory, hpath⟩

theorem Straight.within (hdirectory : Straight directory) (hpath : Straight path) :
    Straight (Glob.within directory path) := by
  unfold Glob.within
  split
  · exact hpath
  · split
    · exact hdirectory
    · exact hdirectory.join hpath

theorem Straight.parent (h : Straight path) : Straight (Path.parent path) := by
  rw [straight_iff, names_eq_append, List.mem_append, not_or] at h
  exact straight_iff.mpr h.1

theorem Straight.leaf_ne_dots (h : Straight path) : leaf path ≠ ['.', '.'] := by
  rw [straight_iff, names_eq_append, List.mem_append, not_or] at h
  intro hleaf
  rw [hleaf] at h
  exact h.2 List.mem_cons_self

end Path

namespace Glob

open Splice.Path (Straight)

variable {tree : Tree} {base directory path pattern name way : Text} {directoriesOnly : Bool}
  {fuel : Nat} {cwd : Option Text}

/-! ### What is found -/

/-- What the last name of a pattern finds is spelt by names, or it is the directory itself. -/
theorem exists_names_of_mem_lastName (hclosed : tree.Closed) (hname : '/' ∉ name)
    (hdots : name ≠ ['.', '.']) (h : way ∈ lastName tree directoriesOnly directory name) :
    (∃ names, (∀ name ∈ names, IsName name) ∧ way = Path.ofNames names) ∨ way = ['.'] := by
  cases mem_lastName_iff.mp h with
  | here => exact .inl ⟨[], by simp, rfl⟩
  | below _ hbelow =>
    obtain ⟨names, -, hnames, hway, -⟩ := exists_entry_of_mem_below hclosed.toProper hbelow
    exact .inl ⟨names, hnames, hway⟩
  | matching hwild _ hmatching =>
    obtain ⟨place, -, hmem, -⟩ := (mem_namesMatching_iff hwild).mp hmatching
    refine .inl ⟨[way], ?_, (Path.ofNames_singleton way).symm⟩
    simpa using isName_of_mem_namesAt hclosed.toProper hmem
  | itself =>
    by_cases hnil : name = []
    · exact .inl ⟨[], by simp, hnil⟩
    · by_cases hdot : name = ['.']
      · exact .inr hdot
      · refine .inl ⟨[name], ?_, (Path.ofNames_singleton name).symm⟩
        have hproper : IsName name := ⟨⟨hnil, hname, hdot⟩, hdots⟩
        simpa using hproper

theorem isAbsolute_of_mem_lastName (hclosed : tree.Closed) (hname : '/' ∉ name)
    (hdots : name ≠ ['.', '.']) (h : way ∈ lastName tree directoriesOnly directory name) :
    Path.isAbsolute way = false := by
  rcases exists_names_of_mem_lastName hclosed hname hdots h with ⟨names, hnames, rfl⟩ | rfl
  · exact Path.isAbsolute_ofNames fun other hother => (hnames other hother).toIsStep
  · rfl

theorem straight_of_mem_lastName (hclosed : tree.Closed) (hname : '/' ∉ name)
    (hdots : name ≠ ['.', '.']) (h : way ∈ lastName tree directoriesOnly directory name) :
    Straight way := by
  rcases exists_names_of_mem_lastName hclosed hname hdots h with ⟨names, hnames, rfl⟩ | rfl
  · exact Path.straight_ofNames hnames
  · decide

/-- A pattern without double dots finds paths without them. -/
theorem straight_of_mem_search (hclosed : tree.Closed) (hpattern : Straight pattern)
    (h : path ∈ search tree base fuel directoriesOnly pattern) : Straight path := by
  induction fuel generalizing directoriesOnly pattern path with
  | zero => exact absurd h List.not_mem_nil
  | succ fuel ih =>
    cases mem_search_succ_iff.mp h with
    | itself => exact hpattern
    | inside _ hdirectory hway =>
      refine Straight.join ?_ (straight_of_mem_lastName hclosed (Path.slash_not_mem_leaf pattern)
        hpattern.leaf_ne_dots hway)
      rcases mem_directoriesOf hdirectory with hdirectory | rfl
      · exact ih hpattern.parent hdirectory
      · exact hpattern.parent

theorem dots_of_mem_names_leaf (h : ['.', '.'] ∈ Path.names (Path.leaf pattern)) :
    Path.leaf pattern = ['.', '.'] := by
  rw [Path.names, Text.pieces_of_not_mem (Path.slash_not_mem_leaf pattern)] at h
  exact (List.mem_singleton.mp (List.mem_of_mem_filter h)).symm

/-- The double dots of a pattern stay in the paths that it finds. -/
theorem not_straight_of_mem_search (hclosed : tree.Closed) (hpattern : ¬ Straight pattern)
    (h : path ∈ search tree base fuel directoriesOnly pattern) : ¬ Straight path := by
  induction fuel generalizing directoriesOnly pattern path with
  | zero => exact absurd h List.not_mem_nil
  | succ fuel ih =>
    cases mem_search_succ_iff.mp h with
    | itself => exact hpattern
    | inside _ hdirectory hway =>
      rw [Path.straight_iff, not_not, Path.names_eq_append, List.mem_append] at hpattern
      rw [Path.straight_iff, not_not]
      by_cases hleaf : Path.leaf pattern = ['.', '.']
      · rw [hleaf] at hway
        -- The double dots are the last name, which finds nothing but itself.
        rw [eq_of_mem_lastName (by rfl) hway, Path.names_join rfl]
        exact List.mem_append_right _ (by decide)
      · have hinside := hpattern.resolve_right fun hmem => hleaf (dots_of_mem_names_leaf hmem)
        -- They are in front of it, and what is found begins with the directory.
        have hrelative :=
          isAbsolute_of_mem_lastName hclosed (Path.slash_not_mem_leaf pattern) hleaf hway
        rw [Path.names_join hrelative]
        refine List.mem_append_left _ ?_
        rcases mem_directoriesOf hdirectory with hdirectory | rfl
        · have hnot : ¬ Straight (Path.parent pattern) := by
            rw [Path.straight_iff, not_not]
            exact hinside
          simpa [Path.straight_iff] using ih hnot hdirectory
        · exact hinside

theorem straight_of_mem_find (hclosed : tree.Closed) (hpattern : Straight pattern)
    (h : path ∈ find tree base pattern) : Straight path :=
  straight_of_mem_search hclosed hpattern (mem_search_of_mem_find h)

end Glob

end Splice
