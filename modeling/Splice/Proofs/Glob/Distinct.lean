import Mathlib.Data.List.Nodup
import Splice.Proofs.Glob.Growing

/-!
# Patterns that find no path twice

A pattern in which at most one name stands for any way down finds no path twice: the names that the
rest of the pattern takes are as many on each path, so that they can be told from those of the way
down.

* `Glob.nodup_names_below`, `Glob.nodup_names_lastName` — what a single name finds;
* `Glob.length_names_of_mem_search` — how many names there are on a path; and
* `Glob.nodup_names_search`, `Glob.pairwise_isBefore_expand` — what a whole pattern finds.
-/

namespace Splice

open Splice.Path (IsName)

/-- Different texts come one before the other when they are sorted. -/
theorem Text.pairwise_isBefore_sort {texts : List Text} (h : texts.Nodup) :
    (sort texts).Pairwise fun s t => isBefore s t = true := by
  have hnodup : (sort texts).Nodup := (List.mergeSort_perm texts _).nodup_iff.mpr h
  refine ((pairwise_sort texts).and hnodup).imp fun {s t} ⟨hnot, hne⟩ => ?_
  rw [← Bool.not_eq_true, isBefore_iff, List.not_lt] at hnot
  rw [isBefore_iff, ← List.not_le]
  exact fun hle => hne (List.le_antisymm hnot hle)

/-- Texts each of which comes before the next are different. -/
theorem Text.nodup_of_pairwise_isBefore {texts : List Text}
    (h : texts.Pairwise fun s t => isBefore s t = true) : texts.Nodup :=
  h.imp fun {s t} hbefore heq => by
    rw [heq, isBefore_iff] at hbefore
    exact List.lt_irrefl _ hbefore

namespace Glob

open Wildcard (isPattern)

variable {tree : Tree} {base directory path pattern name way : Text}
  {directoriesOnly : Bool} {fuel : Nat} {cwd : Option Text}

/-! ### One name -/

theorem relative_of_mem_lastName (hclosed : tree.Closed) (hname : '/' ∉ name)
    (h : way ∈ lastName tree directoriesOnly directory name) : Path.isAbsolute way = false := by
  by_cases hdots : name = ['.', '.']
  · subst hdots
    rw [eq_of_mem_lastName (by rfl) h]
    rfl
  · exact isAbsolute_of_mem_lastName hclosed hname hdots h

theorem names_of_isPattern (hname : '/' ∉ name) (hwild : isPattern name = true) :
    Path.names name = [name] := by
  refine Path.names_of_isStep ⟨?_, hname, ?_⟩ <;>
  · rintro rfl
    cases hwild

/-- The names of what is below a directory: one that is seen there, alone or in front of the names
of what is below it. -/
theorem names_below_succ (hproper : tree.Proper) (fuel : Nat) (place : Place) :
    (below tree directoriesOnly (fuel + 1) place).map Path.names =
      ((namesAt tree directoriesOnly place).filter fun name => !isHidden name).flatMap fun name =>
        ([] :: (below tree directoriesOnly fuel (place ++ [name])).map Path.names).map
          (List.cons name) := by
  rw [below_step, List.map_flatMap]
  refine List.flatMap_congr fun name hname => ?_
  have hproperName := isName_of_mem_namesAt hproper (List.mem_filter.mp hname).1
  rw [List.map_cons, List.map_cons, Path.names_of_isStep hproperName.toIsStep,
    List.map_map, List.map_map]
  congr 1
  refine List.map_congr_left fun way hway => ?_
  obtain ⟨names, -, hnames, rfl, -⟩ := exists_entry_of_mem_below hproper hway
  have hsteps : ∀ other ∈ names, Path.IsStep other :=
    fun other hother => (hnames other hother).toIsStep
  rw [Function.comp_apply, Function.comp_apply, within_ofNames hproperName hnames,
    Path.names_ofNames hsteps,
    Path.names_ofNames (List.forall_mem_cons.mpr ⟨hproperName.toIsStep, hsteps⟩)]

theorem nil_not_mem_names_below (hproper : tree.Proper) (fuel : Nat) (place : Place) :
    [] ∉ (below tree directoriesOnly fuel place).map Path.names := by
  cases fuel with
  | zero => exact List.not_mem_nil
  | succ fuel => simp [names_below_succ hproper]

/-- What is below a directory has names, and no two paths have the same. The induction follows the
levels. -/
theorem nodup_names_below (hproper : tree.Proper) (fuel : Nat) (place : Place) :
    ((below tree directoriesOnly fuel place).map Path.names).Nodup := by
  induction fuel generalizing place with
  | zero => exact List.nodup_nil
  | succ fuel ih =>
    rw [names_below_succ hproper, List.nodup_flatMap]
    refine ⟨fun name _ => ?_, ?_⟩
    · exact (List.nodup_cons.mpr ⟨nil_not_mem_names_below hproper fuel _, ih _⟩).map
        fun _ _ heq => (List.cons.inj heq).2
    · refine ((Tree.nodup_children hproper.nodup place).filter _ |>.filter _).imp
        fun {name other} hne => ?_
      intro names hnames hother
      obtain ⟨rest, -, rfl⟩ := List.mem_map.mp hnames
      obtain ⟨rest', -, heq⟩ := List.mem_map.mp hother
      exact hne (List.cons.inj heq).1.symm

/-- No two ways that a name finds in a directory have the same names. -/
theorem nodup_names_lastName (hclosed : tree.Closed) :
    ((lastName tree directoriesOnly directory name).map Path.names).Nodup := by
  by_cases hany : name = anyWay
  · subst hany
    rw [lastName_anyWay, waysDown, List.map_cons]
    split
    · exact List.nodup_singleton _
    · exact List.nodup_cons.mpr ⟨nil_not_mem_names_below hclosed.toProper _ _,
        nodup_names_below hclosed.toProper _ _⟩
  · cases hwild : isPattern name with
    | true =>
      refine (nodup_lastName hclosed.toProper hany).map_on fun one hone other hother heq => ?_
      rw [lastName_of_wild hwild hany] at hone hother
      obtain ⟨_, -, hone, -⟩ := (mem_namesMatching_iff hwild).mp hone
      obtain ⟨_, -, hother, -⟩ := (mem_namesMatching_iff hwild).mp hother
      rw [Path.names_of_isStep (isName_of_mem_namesAt hclosed.toProper hone).toIsStep,
        Path.names_of_isStep (isName_of_mem_namesAt hclosed.toProper hother).toIsStep] at heq
      exact List.head_eq_of_cons_eq heq
    | false =>
      rw [lastName_of_plain hwild]
      split <;> simp

/-- A name that does not stand for any way down finds ways with as many names as it has itself. -/
theorem length_names_of_mem_lastName (hclosed : tree.Closed) (hname : '/' ∉ name)
    (hany : name ≠ anyWay) (h : way ∈ lastName tree directoriesOnly directory name) :
    (Path.names way).length = (Path.names name).length := by
  cases mem_lastName_iff.mp h with
  | here => exact absurd rfl hany
  | below => exact absurd rfl hany
  | matching hwild _ hmatching =>
    obtain ⟨_, -, hway, -⟩ := (mem_namesMatching_iff hwild).mp hmatching
    rw [names_of_isPattern hname hwild,
      Path.names_of_isStep (isName_of_mem_namesAt hclosed.toProper hway).toIsStep]
    rfl
  | itself => rfl

/-! ### Whole patterns -/

theorem count_names_eq (pattern : Text) :
    (Path.names pattern).count anyWay =
      (Path.names (Path.parent pattern)).count anyWay + if Path.leaf pattern =
        anyWay then 1 else 0 := by
  rw [Path.names_eq_append, List.count_append]
  congr 1
  split
  · rename_i hany
    rw [hany]
    rfl
  · rename_i hany
    rw [List.count_eq_zero]
    intro hmem
    have hpieces := List.mem_of_mem_filter hmem
    rw [Text.pieces_of_not_mem (Path.slash_not_mem_leaf pattern), List.mem_singleton] at hpieces
    exact hany hpieces.symm

section

variable (hclosed : tree.Closed)
include hclosed

theorem names_join_lastName (h : way ∈ lastName tree directoriesOnly directory (Path.leaf pattern))
    (front : Text) : Path.names (Path.join front way) = Path.names front ++ Path.names way :=
  Path.names_join (relative_of_mem_lastName hclosed (Path.slash_not_mem_leaf pattern) h) front

/-- Without a name for any way down, there are as many names on a path as in the pattern. The
induction follows the names of the pattern, from the last to the first. -/
theorem length_names_of_mem_search (hany : anyWay ∉ Path.names pattern)
    (h : path ∈ search tree base fuel directoriesOnly pattern) :
    (Path.names path).length = (Path.names pattern).length := by
  induction fuel generalizing directoriesOnly pattern path with
  | zero => exact absurd h List.not_mem_nil
  | succ fuel ih =>
    cases mem_search_succ_iff.mp h with
    | itself => rfl
    | @inside directory way _ hdirectory hway =>
      have hcount := List.count_eq_zero.mpr hany
      rw [count_names_eq, Nat.add_eq_zero_iff] at hcount
      have hlast : Path.leaf pattern ≠ anyWay := fun heq => by simp [heq] at hcount
      have hfront : (Path.names directory).length = (Path.names (Path.parent pattern)).length :=
        (mem_directoriesOf hdirectory).elim (ih (List.count_eq_zero.mp hcount.1))
          fun heq => by rw [heq]
      rw [names_join_lastName hclosed hway, List.length_append, hfront,
        length_names_of_mem_lastName hclosed (Path.slash_not_mem_leaf pattern) hlast hway,
        Path.names_eq_append pattern, List.length_append]

/-- Paths in directories have different names if those of the directories differ, and those of the
ways that are found in each: either the directories have all as many names or the ways have, so that
the names of a path fall apart in one way only. -/
theorem nodup_names_flatMap {directories : List Text}
    (hdirectories : (directories.map Path.names).Nodup)
    (hsplit : ∀ directory ∈ directories, ∀ other ∈ directories,
      ∀ way ∈ lastName tree directoriesOnly (within base directory) (Path.leaf pattern),
      ∀ way' ∈ lastName tree directoriesOnly (within base other) (Path.leaf pattern),
        (Path.names directory).length = (Path.names other).length ∨
          (Path.names way).length = (Path.names way').length) :
    ((directories.flatMap fun directory =>
      (lastName tree directoriesOnly (within base directory) (Path.leaf pattern)).map
        (Path.join directory)).map Path.names).Nodup := by
  have hnames (directory : Text) :
      ((lastName tree directoriesOnly (within base directory) (Path.leaf pattern)).map
          (Path.join directory)).map Path.names =
        ((lastName tree directoriesOnly (within base directory) (Path.leaf pattern)).map
          Path.names).map (Path.names directory ++ ·) := by
    rw [List.map_map, List.map_map]
    exact List.map_congr_left fun way hway => names_join_lastName hclosed hway directory
  rw [List.map_flatMap, List.flatMap_congr fun directory _ => hnames directory, List.nodup_flatMap]
  refine ⟨fun directory _ => ?_, ?_⟩
  · exact (nodup_names_lastName hclosed).map (List.append_right_injective _)
  · refine (List.pairwise_map.mp hdirectories).imp_of_mem fun {directory other} hmem hmem' hne => ?_
    intro names hleft hright
    obtain ⟨_, hmemWay, rfl⟩ := List.mem_map.mp hleft
    obtain ⟨way, hway, rfl⟩ := List.mem_map.mp hmemWay
    obtain ⟨_, hmemWay', heq⟩ := List.mem_map.mp hright
    obtain ⟨way', hway', rfl⟩ := List.mem_map.mp hmemWay'
    -- One pair of parts is equally long, so that equal names are split at the same point.
    rcases hsplit directory hmem other hmem' way hway way' hway' with hlength | hlength
    · exact hne (List.append_inj heq hlength.symm).1.symm
    · exact hne (List.append_inj' heq hlength.symm).1.symm

/-- With at most one name for any way down, no two paths have the same names. The induction follows
the names of the pattern, from the last to the first. -/
theorem nodup_names_search (hany : (Path.names pattern).count anyWay ≤ 1) :
    ((search tree base fuel directoriesOnly pattern).map Path.names).Nodup := by
  induction fuel generalizing directoriesOnly pattern with
  | zero => exact List.nodup_nil
  | succ fuel ih =>
    cases hwild : isPattern pattern with
    | false =>
      rw [search_of_plain hwild]
      split <;> simp
    | true =>
      rw [search_of_wild hwild]
      rw [count_names_eq] at hany
      refine nodup_names_flatMap hclosed ?_ ?_
      · unfold directoriesOf
        split
        · exact ih (by omega)
        · exact List.nodup_singleton _
      · intro directory hdirectory other hother way hway way' hway'
        by_cases hlast : Path.leaf pattern = anyWay
        · -- All the other names of the pattern take one name each.
          have hfront : anyWay ∉ Path.names (Path.parent pattern) := by
            rw [if_pos hlast] at hany
            exact List.count_eq_zero.mp (by omega)
          have hlength {directory : Text} (h : directory ∈ directoriesOf tree base fuel pattern) :
              (Path.names directory).length = (Path.names (Path.parent pattern)).length :=
            (mem_directoriesOf h).elim (length_names_of_mem_search hclosed hfront)
              fun heq => by rw [heq]
          exact .inl ((hlength hdirectory).trans (hlength hother).symm)
        · have hname := Path.slash_not_mem_leaf pattern
          exact .inr ((length_names_of_mem_lastName hclosed hname hlast hway).trans
            (length_names_of_mem_lastName hclosed hname hlast hway').symm)

theorem nodup_find_of_count_le (hany : (Path.names pattern).count anyWay ≤ 1) :
    (find tree base pattern).Nodup := by
  rw [find_eq_filter hclosed]
  exact ((nodup_names_search hclosed hany).of_map _).filter _

/-- With at most one name for any way down, each path comes before the next. -/
theorem pairwise_isBefore_expand (hany : (Path.names pattern).count anyWay ≤ 1) :
    (expand tree cwd pattern).Pairwise fun path other => Text.isBefore path other = true :=
  Text.pairwise_isBefore_sort (nodup_find_of_count_le hclosed hany)

/-- The same for the files among what is found. -/
theorem pairwise_isBefore_expandFiles (hany : (Path.names pattern).count anyWay ≤ 1) :
    (expandFiles tree cwd pattern).Pairwise fun path other => Text.isBefore path other = true :=
  Text.pairwise_isBefore_sort ((nodup_find_of_count_le hclosed hany).filter _)

end

end Glob

end Splice
