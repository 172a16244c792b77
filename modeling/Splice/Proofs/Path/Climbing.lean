import Splice.Proofs.Glob.Existing

/-!
# How far a path leads up

A relative path leads up some directories and then down some names, in this order once its double
dots have been resolved where they can be.

* `Path.rise`, `Path.descent` — how far it leads up, and the names that it then leads down;
* `Tree.placeOf_join_eq` — where it leads from a directory; and
* `Path.LiesBelow` — a path leads strictly below a directory.
-/

namespace Splice

open Splice.Path (IsName IsStep IsRoot rooted)

namespace Path

variable {steps : List Text} {path : Text}

/-! ### Up and down -/

/-- The number of directories that a relative path leads up. -/
def rise (path : Text) : Nat := (normalNames path).count ['.', '.']

/-- The names that a relative path leads down when it has led up. -/
def descent (path : Text) : List Text := (normalNames path).drop (rise path)

/-- Names lead up first and down afterwards when double dots have been resolved. The names are given
last first. -/
theorem exists_foldl_push (down : List Text) (count : Nat) (hdown : ∀ name ∈ down, IsName name)
    (hsteps : ∀ name ∈ steps, IsStep name) :
    ∃ (down' : List Text) (count' : Nat), (∀ name ∈ down', IsName name) ∧
      steps.foldl (push false) (down.reverse ++ List.replicate count ['.', '.']) =
        down'.reverse ++ List.replicate count' ['.', '.'] := by
  induction steps generalizing down count with
  | nil => exact ⟨down, count, hdown, rfl⟩
  | cons name steps ih =>
    obtain ⟨hname, hrest⟩ := List.forall_mem_cons.mp hsteps
    rw [List.foldl_cons]
    by_cases hdots : name = ['.', '.']
    · subst hdots
      -- Double dots take the last name off; if there is none, they are one more.
      rcases down.eq_nil_or_concat' with rfl | ⟨front, last, rfl⟩
      · have hpush : push false (List.replicate count ['.', '.']) ['.', '.'] =
            List.replicate (count + 1) ['.', '.'] := by
          cases count <;> rfl
        rw [List.reverse_nil, List.nil_append, hpush]
        exact ih [] (count + 1) (by simp) hrest
      · have hlast : last ≠ ['.', '.'] := (hdown last (by simp)).ne_dots
        have hpush : push false ((front ++ [last]).reverse ++ List.replicate count ['.', '.'])
            ['.', '.'] = front.reverse ++ List.replicate count ['.', '.'] := by
          simp [push, hlast]
        rw [hpush]
        exact ih front count (fun other hother => hdown other (List.mem_append_left _ hother)) hrest
    · have hpush (stack : List Text) : push false stack name = name :: stack := if_neg hdots
      rw [hpush, ← List.cons_append, ← List.reverse_concat]
      refine ih (down ++ [name]) count (fun other hother => ?_) hrest
      rcases List.mem_append.mp hother with hother | hother
      · exact hdown other hother
      · rw [List.mem_singleton.mp hother]
        exact ⟨hname, hdots⟩

theorem normalNames_relative (h : isAbsolute path = false) :
    normalNames path = List.replicate (rise path) ['.', '.'] ++ descent path ∧
      ∀ name ∈ descent path, IsName name := by
  have hsteps : ∀ name ∈ names path, IsStep name := fun _ => isStep_of_mem_names
  obtain ⟨down, count, hdown, hstack⟩ := exists_foldl_push [] 0 (by simp) hsteps
  have hnormal : normalNames path = List.replicate count ['.', '.'] ++ down := by
    rw [normalNames, h]
    refine (congrArg List.reverse hstack).trans ?_
    simp
  have hnone : down.count ['.', '.'] = 0 :=
    List.count_eq_zero.mpr fun hmem => (hdown _ hmem).ne_dots rfl
  have hrise : rise path = count := by
    rw [rise, hnormal, List.count_append, List.count_replicate_self, hnone, Nat.add_zero]
  have hdescent : descent path = down := by
    rw [descent, hrise, hnormal, List.drop_left' (List.length_replicate)]
  rw [hrise, hdescent]
  exact ⟨hnormal, hdown⟩

end Path

namespace Tree

variable {tree : Tree} {place : Place} {names stack : List Text} {path : Text}

/-- Resolving double dots makes no difference to where names lead. -/
theorem walk_foldl_push (hstack : ∀ name ∈ stack, IsStep name) (h : ∀ name ∈ names, IsStep name) :
    walk place (names.foldl (Path.push false) stack).reverse =
      walk place (stack.reverse ++ names) := by
  induction names generalizing stack with
  | nil => simp
  | cons name names ih =>
    obtain ⟨hname, hnames⟩ := List.forall_mem_cons.mp h
    have hpush :
      walk place (Path.push false stack name).reverse = walk place (stack.reverse ++ [name]) ∧
        ∀ other ∈ Path.push false stack name, IsStep other := by
      unfold Path.push
      split
      · rename_i hdots
        subst hdots
        split
        · exact ⟨rfl, by simpa using hname⟩
        · rename_i top rest
          obtain ⟨htop, hrest⟩ := List.forall_mem_cons.mp hstack
          split
          · exact ⟨by simp, by simpa using ⟨hname, htop, hrest⟩⟩
          · rename_i htopDots
            -- Double dots behind a name lead back to where it started.
            have hdown : stepTo (walk place rest.reverse) top = walk place rest.reverse ++ [top] :=
              stepTo_name ⟨htop, htopDots⟩
            refine ⟨?_, hrest⟩
            rw [List.reverse_cons, walk_concat, walk_concat, hdown]
            exact (List.dropLast_concat).symm
      · exact ⟨by simp, by simpa using ⟨hname, hstack⟩⟩
    rw [List.foldl_cons, ih hpush.2 hnames, walk_append, hpush.1, ← walk_append]
    simp

theorem walk_dots (place : Place) (count : Nat) :
    walk place (List.replicate count ['.', '.']) = place.take (place.length - count) := by
  induction count with
  | zero => simp
  | succ count ih =>
    have hstep (place : Place) : stepTo place ['.', '.'] = place.dropLast := rfl
    rw [List.replicate_succ', walk_concat, ih, hstep, List.dropLast_eq_take, List.length_take,
      List.take_take]
    congr 1
    omega

/-- A relative path leads up as far as there is something above, and then down. -/
theorem walk_names (h : Path.isAbsolute path = false) (place : Place) :
    walk place (Path.names path) =
      place.take (place.length - Path.rise path) ++ Path.descent path := by
  have hsteps : ∀ name ∈ Path.names path, IsStep name := fun _ => Path.isStep_of_mem_names
  obtain ⟨hnormal, hdown⟩ := Path.normalNames_relative h
  have hwalk : walk place (Path.normalNames path) = walk place (Path.names path) := by
    rw [Path.normalNames, h]
    exact walk_foldl_push (by simp) hsteps
  rw [← hwalk, hnormal, walk_append, walk_dots, walk_of_isName hdown]

/-- Where a relative path leads from a directory. -/
theorem placeOf_join_eq (tree : Tree) (directory : Text) (h : Path.isAbsolute path = false) :
    tree.placeOf (Path.join directory path) =
      (tree.placeOf directory).take ((tree.placeOf directory).length - Path.rise path) ++
        Path.descent path := by
  rw [placeOf_join tree directory h, ← walk_names h, ← walk_filter]
  rfl

end Tree

/-! ### Below a directory -/

/-- The path leads strictly below the directory. -/
def Path.LiesBelow (directory path : Text) : Prop :=
  ∃ names, names ≠ [] ∧ (∀ name ∈ names, IsName name) ∧ path = join directory (ofNames names)

theorem Path.liesBelow_rooted_iff {root root' : Text} {down down' : List Text} (hroot : IsRoot root)
    (hroot' : IsRoot root') (h : ∀ name ∈ down, IsName name) (h' : ∀ name ∈ down', IsName name) :
    LiesBelow (rooted root down) (rooted root' down') ↔
      root' = root ∧ ∃ names, names ≠ [] ∧ down' = down ++ names := by
  have hjoin {names : List Text} (hne : names ≠ []) (hnames : ∀ name ∈ names, IsName name) :
      join (rooted root down) (ofNames names) = rooted root (down ++ names) :=
    join_rooted_ofNames hroot h (fun name hname => (hnames name hname).toIsStep) hne
  constructor
  · intro hbelow
    obtain ⟨names, hne, hnames, heq⟩ := hbelow
    have hall : ∀ name ∈ down ++ names, IsName name :=
      fun name hname => (List.mem_append.mp hname).elim (h name) (hnames name)
    rw [hjoin hne hnames, rooted_inj hroot' hroot h' hall] at heq
    exact ⟨heq.1, names, hne, heq.2⟩
  · intro hbelow
    obtain ⟨heq, names, hne, hdown⟩ := hbelow
    have hnames : ∀ name ∈ names, IsName name := by
      intro name hname
      rw [hdown] at h'
      exact h' name (List.mem_append_right _ hname)
    exact ⟨names, hne, hnames, by rw [hjoin hne hnames, heq, hdown]⟩

/-- Where one absolute path leads below another. -/
theorem Tree.liesBelow_absolute_iff {tree : Tree} (hcwd : Path.isAbsolute tree.cwd = true)
    (directory path : Text) :
    Path.LiesBelow (Path.absolute tree.cwd directory) (Path.absolute tree.cwd path) ↔
      Path.root (Path.join tree.cwd path) = Path.root (Path.join tree.cwd directory) ∧
        ∃ names, names ≠ [] ∧ tree.placeOf path = tree.placeOf directory ++ names := by
  have hroot (path : Text) : IsRoot (Path.root (Path.join tree.cwd path)) :=
    Path.isRoot_root (Path.isAbsolute_join hcwd path)
  rw [absolute_eq_rooted hcwd, absolute_eq_rooted hcwd]
  exact Path.liesBelow_rooted_iff (hroot directory) (hroot path)
    (isName_of_mem_placeOf hcwd directory) (isName_of_mem_placeOf hcwd path)

end Splice
