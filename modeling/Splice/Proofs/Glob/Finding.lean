import Splice.Proofs.Glob.Literal

/-!
# How a name finds what it finds

A name of a pattern stands for any way down, or it has wildcards that names match, or it stands for
itself. A search takes the last name off its pattern and looks for it in each directory that the
rest of the pattern finds.

* `Glob.FindsWay`, `Glob.mem_lastName_iff` — what one name finds in a directory; and
* `Glob.FindsPath`, `Glob.mem_search_succ_iff` — what one round of a search finds.
-/

namespace Splice.Glob

open Wildcard (isPattern)

variable {tree : Tree} {base directory pattern path name way : Text} {place : Place}
  {directoriesOnly : Bool} {fuel : Nat}

/-! ### One name -/

/-- Is a name without wildcards in the directory? The empty name stands for the directory. -/
def isInside (tree : Tree) (directory name : Text) : Bool :=
  if name.isEmpty then tree.isDirectory directory else tree.has (within directory name)

theorem nameItself_eq (tree : Tree) (directory name : Text) :
    nameItself tree directory name = if isInside tree directory name then [name] else [] := by
  unfold nameItself isInside
  split <;> rfl

/-- What a name finds in a directory. -/
inductive FindsWay (tree : Tree) (directoriesOnly : Bool) (directory : Text) : Text → Text → Prop
  /-- Any way down leads to the directory itself, even if there is none. -/
  | here : FindsWay tree directoriesOnly directory anyWay []
  /-- It leads to what is below the directory. -/
  | below {place : Place} {way : Text} : directoryPlace? tree directory = some place →
      way ∈ below tree directoriesOnly (tree.entries.length + 1) place →
      FindsWay tree directoriesOnly directory anyWay way
  /-- Another name with wildcards finds the names that match it. -/
  | matching {name way : Text} : isPattern name = true → name ≠ anyWay →
      way ∈ namesMatching tree directoriesOnly directory name →
      FindsWay tree directoriesOnly directory name way
  /-- A name without wildcards finds itself. -/
  | itself {name : Text} : isPattern name = false → isInside tree directory name = true →
      FindsWay tree directoriesOnly directory name name

theorem lastName_anyWay (tree : Tree) (directoriesOnly : Bool) (directory : Text) :
    lastName tree directoriesOnly directory anyWay = waysDown tree directoriesOnly directory := rfl

theorem lastName_of_wild (hwild : isPattern name = true) (hany : name ≠ anyWay) :
    lastName tree directoriesOnly directory name =
      namesMatching tree directoriesOnly directory name := by
  rw [lastName, if_pos hwild, if_neg hany]

theorem lastName_of_plain (hplain : isPattern name = false) :
    lastName tree directoriesOnly directory name =
      if isInside tree directory name then [name] else [] := by
  rw [lastName, if_neg (by simp [hplain]), nameItself_eq]

theorem eq_of_mem_lastName (hplain : isPattern name = false)
    (h : way ∈ lastName tree directoriesOnly directory name) : way = name := by
  rw [lastName_of_plain hplain, List.mem_ite_nil_right] at h
  exact List.mem_singleton.mp h.2

theorem mem_waysDown_iff :
    way ∈ waysDown tree directoriesOnly directory ↔
      way = [] ∨ ∃ place, directoryPlace? tree directory = some place ∧
        way ∈ below tree directoriesOnly (tree.entries.length + 1) place := by
  rw [waysDown, List.mem_cons]
  cases directoryPlace? tree directory <;> simp

theorem mem_lastName_iff :
    way ∈ lastName tree directoriesOnly directory name ↔
      FindsWay tree directoriesOnly directory name way := by
  constructor
  · intro h
    by_cases hany : name = anyWay
    · subst hany
      rw [lastName_anyWay, mem_waysDown_iff] at h
      obtain rfl | ⟨place, hplace, hway⟩ := h
      · exact .here
      · exact .below hplace hway
    · cases hwild : isPattern name with
      | true =>
        rw [lastName_of_wild hwild hany] at h
        exact .matching hwild hany h
      | false =>
        rw [lastName_of_plain hwild, List.mem_ite_nil_right, List.mem_singleton] at h
        obtain ⟨hinside, rfl⟩ := h
        exact .itself hwild hinside
  · intro h
    cases h with
    | here => exact mem_waysDown_iff.mpr (.inl rfl)
    | below hplace hway => exact mem_waysDown_iff.mpr (.inr ⟨_, hplace, hway⟩)
    | matching hwild hany hway => rwa [lastName_of_wild hwild hany]
    | itself hplain hinside =>
      rw [lastName_of_plain hplain, if_pos hinside]
      exact List.mem_singleton_self _

/-! ### Whole patterns -/

/-- Is the path of a pattern without wildcards there? A slash at its end asks for a directory. -/
def isFound (tree : Tree) (base pattern : Text) : Bool :=
  if (Path.leaf pattern).isEmpty then tree.isDirectory (within base (Path.parent pattern))
  else tree.has (within base pattern)

/-- The directories in which the last name of a pattern is looked for, seen from `base`. -/
def directoriesOf (tree : Tree) (base : Text) (fuel : Nat) (pattern : Text) : List Text :=
  if Path.parent pattern ≠ pattern ∧ isPattern (Path.parent pattern) then
    search tree base fuel true (Path.parent pattern)
  else [Path.parent pattern]

/-- They are found by the rest of the pattern, or it spells the only one. -/
theorem mem_directoriesOf (h : directory ∈ directoriesOf tree base fuel pattern) :
    directory ∈ search tree base fuel true (Path.parent pattern) ∨
      directory = Path.parent pattern := by
  unfold directoriesOf at h
  split at h
  · exact .inl h
  · exact .inr (List.mem_singleton.mp h)

/-- A pattern without wildcards finds itself. -/
theorem search_of_plain (hplain : isPattern pattern = false) :
    search tree base (fuel + 1) directoriesOnly pattern =
      if isFound tree base pattern then [pattern] else [] := by
  rw [search]
  simp only [hplain, Bool.not_false, if_true]
  unfold isFound
  split <;> rfl

/-- A pattern with wildcards is taken apart, whether there is anything in front of its last name or
not. -/
theorem search_of_wild (hwild : isPattern pattern = true) :
    search tree base (fuel + 1) directoriesOnly pattern =
      (directoriesOf tree base fuel pattern).flatMap fun directory =>
        (lastName tree directoriesOnly (within base directory) (Path.leaf pattern)).map
          (Path.join directory) := by
  rw [search]
  simp only [hwild, Bool.not_true, Bool.false_eq_true, if_false]
  split
  · rename_i hempty
    have hparent : Path.parent pattern = [] := List.isEmpty_iff.mp hempty
    have hplain : isPattern [] = false := rfl
    have hjoin : Path.join [] = id := funext Path.join_nil
    rw [directoriesOf, hparent, hplain]
    simp [hjoin, within_nil_right]
  · rfl

/-- What a round of a search finds. -/
inductive FindsPath (tree : Tree) (base : Text) (fuel : Nat) (directoriesOnly : Bool)
    (pattern : Text) :
    Text → Prop
  /-- A pattern without wildcards finds itself. -/
  | itself : isPattern pattern = false → isFound tree base pattern = true →
      FindsPath tree base fuel directoriesOnly pattern pattern
  /-- Another one finds what its last name does in a directory that the rest of it finds. -/
  | inside {directory way : Text} : isPattern pattern = true →
      directory ∈ directoriesOf tree base fuel pattern →
      way ∈ lastName tree directoriesOnly (within base directory) (Path.leaf pattern) →
      FindsPath tree base fuel directoriesOnly pattern (Path.join directory way)

theorem mem_search_succ_iff :
    path ∈ search tree base (fuel + 1) directoriesOnly pattern ↔
      FindsPath tree base fuel directoriesOnly pattern path := by
  constructor
  · intro h
    cases hwild : isPattern pattern with
    | true =>
      rw [search_of_wild hwild] at h
      obtain ⟨directory, hdirectory, hpath⟩ := List.mem_flatMap.mp h
      obtain ⟨way, hway, rfl⟩ := List.mem_map.mp hpath
      exact .inside hwild hdirectory hway
    | false =>
      rw [search_of_plain hwild, List.mem_ite_nil_right, List.mem_singleton] at h
      obtain ⟨hfound, rfl⟩ := h
      exact .itself hwild hfound
  · intro h
    cases h with
    | itself hplain hfound =>
      rw [search_of_plain hplain, if_pos hfound]
      exact List.mem_singleton_self _
    | inside hwild hdirectory hway =>
      rw [search_of_wild hwild]
      exact List.mem_flatMap.mpr ⟨_, hdirectory, List.mem_map_of_mem hway⟩

theorem mem_search_of_mem_find (h : path ∈ find tree base pattern) :
    path ∈ search tree base (pattern.length + 1) false pattern := by
  unfold find at h
  simp only at h
  split at h
  · rename_i rest hfound
    rw [hfound]
    split at h
    · exact List.mem_cons_of_mem _ h
    · rwa [hfound] at h
  · exact h

end Splice.Glob
