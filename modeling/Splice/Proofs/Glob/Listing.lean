import Mathlib.Data.List.Perm.Basic
import Splice.Proofs.Glob.Growing
import Splice.Proofs.Tree.Listing

/-!
# What patterns find when directories are listed in another order

The paths that a pattern finds come in the order in which directories are listed. In a tree whose
directories are listed in another order a pattern finds the same paths, each as often, so that they
are the same list once they are sorted.

* `Glob.below_relists`, `Glob.lastName_relists` — what is below a directory, and what a name finds
  in it;
* `Glob.search_relists`, `Glob.find_relists` — what a pattern finds, in some order; and
* `Glob.expand_relists`, `Glob.expandFiles_relists`, `Glob.expandAll_relists` — what is made of it.
-/

namespace Splice

/-- Sorting forgets the order in which texts are given. -/
theorem Text.sort_eq_of_perm {texts others : List Text} (h : others.Perm texts) :
    sort others = sort texts := by
  refine List.Perm.eq_of_pairwise (fun s t _ _ hst hts => ?_) (pairwise_sort others)
    (pairwise_sort texts) ?_
  · -- Of two texts neither of which comes before the other, there is only one.
    rw [← Bool.not_eq_true, isBefore_iff, List.not_lt] at hst hts
    exact List.le_antisymm hst hts
  · exact (List.mergeSort_perm others _).trans (h.trans (List.mergeSort_perm texts _).symm)

namespace Glob

variable {tree other : Tree} {directoriesOnly : Bool}

section

variable (h : tree.Relists other)
include h

theorem namesAt_relists (place : Place) :
    (namesAt other directoriesOnly place).Perm (namesAt tree directoriesOnly place) := by
  simp only [namesAt, h.entry?_eq]
  exact (h.children place).filter _

/-- The same is below a directory. The induction follows the levels. -/
theorem below_relists (fuel : Nat) (place : Place) :
    (below other directoriesOnly fuel place).Perm (below tree directoriesOnly fuel place) := by
  induction fuel generalizing place with
  | zero => exact .nil
  | succ fuel ih =>
    rw [below_step, below_step]
    refine ((namesAt_relists h place).filter _).flatMap fun name _ => ?_
    exact ((ih (place ++ [name])).map (within name)).cons name

theorem below_all_relists (place : Place) :
    (below other directoriesOnly (other.entries.length + 1) place).Perm
      (below tree directoriesOnly (tree.entries.length + 1) place) := by
  let enough := max tree.entries.length other.entries.length + 1
  have htree : below tree directoriesOnly enough place = _ :=
    below_eq h.closed (Nat.lt_succ_self _) (Nat.succ_le_succ (Nat.le_max_left _ _))
  have hother : below other directoriesOnly enough place = _ :=
    below_eq h.closed' (Nat.lt_succ_self _) (Nat.succ_le_succ (Nat.le_max_right _ _))
  rw [← htree, ← hother]
  exact below_relists h enough place

theorem directoryPlace?_relists (directory : Text) :
    directoryPlace? other directory = directoryPlace? tree directory := by
  simp only [directoryPlace?, h.locate_eq, h.entry?_eq]

/-- A name finds the same in a directory. -/
theorem lastName_relists (directory name : Text) :
    (lastName other directoriesOnly directory name).Perm
      (lastName tree directoriesOnly directory name) := by
  by_cases hany : name = anyWay
  · subst hany
    rw [lastName_anyWay, lastName_anyWay, waysDown, waysDown, directoryPlace?_relists h]
    refine .cons _ ?_
    split
    · exact .nil
    · exact below_all_relists h _
  · cases hwild : Wildcard.isPattern name with
    | true =>
      rw [lastName_of_wild hwild hany, lastName_of_wild hwild hany, namesMatching, namesMatching,
        directoryPlace?_relists h]
      split
      · exact .nil
      · exact (namesAt_relists h _).filter _
    | false =>
      rw [lastName_of_plain hwild, lastName_of_plain hwild, isInside, isInside,
        h.isDirectory_eq, h.has_eq]

/-- A pattern finds the same. The induction follows its names, from the last to the first. -/
theorem search_relists (base : Text) (fuel : Nat) (directoriesOnly : Bool) (pattern : Text) :
    (search other base fuel directoriesOnly pattern).Perm
      (search tree base fuel directoriesOnly pattern) := by
  induction fuel generalizing directoriesOnly pattern with
  | zero => exact .nil
  | succ fuel ih =>
    cases hwild : Wildcard.isPattern pattern with
    | false => rw [search_of_plain hwild, search_of_plain hwild, isFound, isFound,
        h.isDirectory_eq, h.has_eq]
    | true =>
      rw [search_of_wild hwild, search_of_wild hwild]
      refine List.Perm.flatMap ?_ fun directory _ => (lastName_relists h _ _).map _
      unfold directoriesOf
      split
      · exact ih true (Path.parent pattern)
      · exact .refl _

theorem find_relists (base pattern : Text) :
    (find other base pattern).Perm (find tree base pattern) := by
  rw [find_eq_filter h.closed', find_eq_filter h.closed]
  exact (search_relists h base _ false pattern).filter _

/-- In code point order, this is the same list. -/
theorem expand_relists (cwd : Option Text) (pattern : Text) :
    expand other cwd pattern = expand tree cwd pattern :=
  Text.sort_eq_of_perm (find_relists h _ pattern)

/-- The same for the files among it. -/
theorem expandFiles_relists (cwd : Option Text) (pattern : Text) :
    expandFiles other cwd pattern = expandFiles tree cwd pattern := by
  simp only [expandFiles, h.isFile_eq]
  exact Text.sort_eq_of_perm ((find_relists h _ pattern).filter _)

/-- The same for a list of patterns. -/
theorem expandAll_relists (cwd : Option Text) (patterns : List Text) :
    expandAll other cwd patterns = expandAll tree cwd patterns := by
  have hadd : addPattern other cwd = addPattern tree cwd := by
    funext paths pattern
    simp only [addPattern, expand_relists h]
  rw [expandAll, expandAll, hadd]

end

end Glob

end Splice
