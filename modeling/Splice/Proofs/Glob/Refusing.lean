import Splice.Proofs.Glob.Finding

/-!
# Patterns that are refused

A pattern is refused if the directory in front of its first wildcard has a path with the null
character. What such a pattern could find would have that character in its path too, and so it finds
no file.

* `Glob.null_mem_of_mem_search` — what is found by a pattern that is refused; and
* `Glob.expandFiles_of_refuses` — none of it is a file.
-/

namespace Splice

/-! ### Paths with the null character -/

theorem Path.mem_join_left {c : Char} {base path : Text} (h : c ∈ base)
    (hpath : isAbsolute path = false) : c ∈ join base path := by
  rw [join, hpath, if_neg (by decide)]
  split <;> exact List.mem_append_left _ h

theorem Path.mem_join_right {c : Char} {path : Text} (h : c ∈ path) (base : Text) :
    c ∈ join base path := by
  unfold join
  split
  · exact h
  · split
    · exact List.mem_append_right _ h
    · exact List.mem_append_right _ (List.mem_cons_of_mem _ h)

theorem Tree.find?_of_null_mem {tree : Tree} {path : Text} (h : '\x00' ∈ path) :
    tree.find? path = none := by
  rw [find?, locate, if_pos (.inr h)]

namespace Glob

open Wildcard (isPattern)

variable {tree : Tree} {base directory pattern path name way : Text} {directoriesOnly : Bool}
  {fuel : Nat} {cwd : Option Text}

theorem mem_within_left {c : Char} (h : c ∈ base) (hpath : Path.isAbsolute path = false) :
    c ∈ within base path := by
  unfold within
  split
  · rename_i hbase
    rw [List.isEmpty_iff.mp hbase] at h
    cases h
  · split
    · exact h
    · exact Path.mem_join_left h hpath

/-- The directory itself, as any way down leads to it, keeps the characters of its path. -/
theorem mem_within_join_nil {c : Char} (h : c ∈ within base directory) :
    c ∈ within base (Path.join directory []) := by
  by_cases hdirectory : directory = []
  · subst hdirectory
    exact h
  · have hjoin : ∃ rest, Path.join directory [] = directory ++ rest := by
      rw [Path.join, if_neg (by decide)]
      split
      · exact ⟨[], rfl⟩
      · exact ⟨['/'], rfl⟩
    obtain ⟨rest, hrest⟩ := hjoin
    have hwithin : within base (directory ++ rest) = within base directory ++ rest := by
      by_cases hbase : base = []
      · simp [within, hbase]
      · simp [within, hbase, hdirectory, Path.join_append hdirectory]
    rw [hrest, hwithin]
    exact List.mem_append_left _ h

/-! ### What is found -/

/-- In a directory whose path holds the null character nothing is found; only any way down leads to
the directory itself. -/
theorem eq_nil_of_mem_lastName (hnull : '\x00' ∈ directory) (hname : Path.isAbsolute name = false)
    (h : way ∈ lastName tree directoriesOnly directory name) : way = [] := by
  have hplace : directoryPlace? tree directory = none := by
    have hlist : listPath directory = directory := by
      rw [listPath, List.isEmpty_eq_false_iff.mpr (List.ne_nil_of_mem hnull)]
      rfl
    rw [directoryPlace?, hlist, Tree.locate, if_pos (.inr hnull)]
  cases mem_lastName_iff.mp h with
  | here => rfl
  | below hsome =>
    rw [hplace] at hsome
    cases hsome
  | matching _ _ hway =>
    rw [namesMatching, hplace] at hway
    cases hway
  | itself hplain hinside =>
    unfold isInside at hinside
    split at hinside
    · rw [Tree.isDirectory, Tree.find?_of_null_mem hnull] at hinside
      cases hinside
    · rw [Tree.has, Tree.find?_of_null_mem (mem_within_left hnull hname)] at hinside
      cases hinside

/-- What is found by a pattern that is refused has the null character in its path. -/
theorem null_mem_of_mem_search (hrefused : isRefused base fuel pattern = true)
    (h : path ∈ search tree base fuel directoriesOnly pattern) : '\x00' ∈ within base path := by
  -- The directories in which the last name is looked for have it, those spelt and those found.
  induction fuel generalizing directoriesOnly pattern path with
  | zero => cases hrefused
  | succ fuel ih =>
    rw [isRefused] at hrefused
    cases mem_search_succ_iff.mp h with
    | itself hplain => simp [hplain] at hrefused
    | @inside directory way hwild hdirectory hway =>
      simp only [hwild, Bool.not_true, Bool.false_eq_true, if_false] at hrefused
      have hnull : '\x00' ∈ within base directory := by
        unfold directoriesOf at hdirectory
        split at hdirectory
        · rename_i hrest
          rw [if_pos hrest] at hrefused
          exact ih hrefused hdirectory
        · rename_i hrest
          rw [if_neg hrest, decide_eq_true_iff] at hrefused
          rwa [List.mem_singleton.mp hdirectory]
      rw [eq_nil_of_mem_lastName hnull (Path.isAbsolute_leaf pattern) hway]
      exact mem_within_join_nil hnull

/-- A pattern that is refused finds no file. -/
theorem expandFiles_of_refuses (h : refuses cwd pattern = true) :
    expandFiles tree cwd pattern = [] := by
  have hnone (path : Text) (hpath : path ∈ find tree (cwd.getD []) pattern) :
      tree.isFile (Path.join (cwd.getD []) path) = false := by
    have hwithin := null_mem_of_mem_search h (mem_search_of_mem_find hpath)
    have hnull : '\x00' ∈ Path.join (cwd.getD []) path := by
      unfold within at hwithin
      split at hwithin
      · exact Path.mem_join_right hwithin _
      · split at hwithin
        · rename_i hpath
          rw [List.isEmpty_iff.mp hpath]
          exact Path.mem_join_left hwithin rfl
        · exact hwithin
    rw [Tree.isFile, Tree.find?_of_null_mem hnull]
  rw [expandFiles, List.filter_eq_nil_iff.mpr fun path hpath => by simp [hnone path hpath]]
  exact List.mergeSort_nil

end Glob

end Splice
