import Splice.Proofs.Path.Names

/-!
# The way to the root of the documents

The way climbs from a directory to where it meets the other one, and leads down from there.

* `Path.steps` — the names on the way from one directory to another;
* `Path.toDocroot_eq` — the way from the directory of a file is made of them; and
* `Path.normalize_join_toDocroot` — where it leads from any other directory.
-/

namespace Splice.Path

variable {start target down : List Text} {cwd root file docroot : Text}

/-! ### Common leads -/

theorem commonLead_le_length (start target : List Text) :
    commonLead start target ≤ start.length := by
  induction start generalizing target with
  | nil => exact Nat.le_refl _
  | cons name start ih =>
    cases target with
    | nil => exact Nat.zero_le _
    | cons other target =>
      rw [commonLead]
      split
      · exact Nat.succ_le_succ (ih target)
      · exact Nat.zero_le _

theorem take_commonLead (start target : List Text) :
    start.take (commonLead start target) = target.take (commonLead start target) := by
  induction start generalizing target with
  | nil => rfl
  | cons name start ih =>
    cases target with
    | nil => rfl
    | cons other target =>
      rw [commonLead]
      split
      · rename_i heq
        rw [heq, List.take_succ_cons, List.take_succ_cons, ih target]
      · rfl

/-! ### Climbing -/

/-- The number of names from which the way to a directory climbs. -/
def climb (start target : List Text) : Nat := start.length - commonLead start target

/-- The names on the way from one directory to another. -/
def steps (start target : List Text) : List Text :=
  List.replicate (climb start target) ['.', '.'] ++ target.drop (commonLead start target)

theorem isStep_of_mem_steps (start : List Text) (h : ∀ name ∈ target, IsName name) :
    ∀ name ∈ steps start target, IsStep name := by
  intro name hname
  rcases List.mem_append.mp hname with hdots | htarget
  · rw [List.eq_of_mem_replicate hdots]
    exact isStep_dots
  · exact (h name (List.mem_of_mem_drop htarget)).toIsStep

/-- Climbing takes names away from the end. -/
theorem foldl_push_climb (hdown : ∀ name ∈ down, IsName name) (count : Nat) :
    (List.replicate count ['.', '.']).foldl (push true) (down.foldl (push true) []) =
      (down.take (down.length - count)).reverse := by
  have hdots : ∀ name ∈ down.reverse, name ≠ ['.', '.'] :=
    fun name hname => (hdown name (List.mem_reverse.mp hname)).ne_dots
  rw [foldl_push_names (fun name hname => (hdown name hname).ne_dots), List.append_nil,
    foldl_push_dots hdots, List.drop_reverse]

/-- The way leads up from any directory, and down from where it has come to. -/
theorem foldl_push_steps (hdown : ∀ name ∈ down, IsName name) (h : ∀ name ∈ target, IsName name) :
    ((down ++ steps start target).foldl (push true) []).reverse =
      down.take (down.length - climb start target) ++ target.drop (commonLead start target) := by
  have htarget : ∀ name ∈ target.drop (commonLead start target), name ≠ ['.', '.'] :=
    fun name hname => (h name (List.mem_of_mem_drop hname)).ne_dots
  rw [steps, List.foldl_append, List.foldl_append, foldl_push_climb hdown, foldl_push_names htarget,
    List.reverse_append, List.reverse_reverse, List.reverse_reverse]

/-- A directory of the same depth is climbed from to where the way leads down. -/
theorem sub_climb (h : down.length = start.length) :
    down.length - climb start target = commonLead start target := by
  have hle := commonLead_le_length start target
  rw [climb]
  omega

/-! ### The way as a text -/

/-- The text that spells some steps, with a slash at its end. -/
def wayOf (steps : List Text) : Text := if steps = [] then [] else ofNames steps ++ ['/']

theorem names_wayOf (h : ∀ name ∈ down, IsStep name) : names (wayOf down) = down := by
  unfold wayOf
  split
  · rename_i hdown
    rw [hdown]
    rfl
  · have hempty : names [] = [] := rfl
    rw [names_append_slash, names_ofNames h, hempty, List.append_nil]

theorem isAbsolute_wayOf (h : ∀ name ∈ down, IsStep name) : isAbsolute (wayOf down) = false := by
  unfold wayOf
  split
  · rfl
  · rename_i hdown
    exact isAbsolute_ofNames_append hdown h _

theorem ofNames_ne_dot (h : ∀ name ∈ down, IsStep name) : ofNames down ≠ ['.'] := by
  intro hdot
  have hnames := names_ofNames h
  rw [hdot] at hnames
  subst hnames
  cases hdot

/-- No backslash is on the way to a directory whose path has none. -/
theorem backslash_not_mem_steps (start : List Text) (h : '\\' ∉ ofNames target) :
    '\\' ∉ ofNames (steps start target) := by
  intro hback
  obtain ⟨name, hname, hback⟩ := (mem_ofNames_iff (by decide)).mp hback
  rcases List.mem_append.mp hname with hdots | htarget
  · rw [List.eq_of_mem_replicate hdots] at hback
    simp at hback
  · exact h ((mem_ofNames_iff (by decide)).mpr ⟨name, List.mem_of_mem_drop htarget, hback⟩)

/-- A text with slashes in place of backslashes. -/
def slashed (text : Text) : Text := text.map fun c => if c = '\\' then '/' else c

theorem slashed_of_not_mem {text : Text} (h : '\\' ∉ text) : slashed text = text := by
  have hid : ∀ c ∈ text, (if c = '\\' then '/' else c) = c := by
    intro c hc
    refine if_neg ?_
    rintro rfl
    exact h hc
  rw [slashed, List.map_congr_left hid, List.map_id']

/-- Nothing that is slashed is the single dot, unless it is the dot itself. -/
theorem slashed_eq_dot_iff {text : Text} : slashed text = ['.'] ↔ text = ['.'] := by
  constructor
  · intro h
    obtain ⟨c, rfl, hc⟩ := List.map_eq_singleton_iff.mp h
    split at hc
    · exact absurd hc (by decide)
    · rw [hc]
  · rintro rfl
    rfl

/-- The way from the directory of a file is made of the steps from there, with slashes in place of
the backslashes in them. -/
theorem toDocroot_eq_slashed (hcwd : isAbsolute cwd = true) (file docroot : Text) :
    toDocroot cwd file docroot =
      slashed (wayOf (steps (normalNames (parent (absolute cwd file)))
        (normalNames (absolute cwd docroot)))) := by
  have hway {start : List Text} : ∀ name ∈ steps start (normalNames (absolute cwd docroot)),
      IsStep name :=
    isStep_of_mem_steps start fun _ => isName_of_mem_normalNames (isAbsolute_absolute hcwd docroot)
  have hrelative : relative (absolute cwd docroot) (parent (absolute cwd file)) =
      if steps (normalNames (parent (absolute cwd file))) (normalNames (absolute cwd docroot)) = []
      then ['.']
      else ofNames
        (steps (normalNames (parent (absolute cwd file)))
          (normalNames (absolute cwd docroot))) := by
    simp only [relative, List.isEmpty_iff]
    rfl
  have hdef : toDocroot cwd file docroot =
      if slashed (relative (absolute cwd docroot) (parent (absolute cwd file))) = ['.'] then []
      else slashed (relative (absolute cwd docroot) (parent (absolute cwd file))) ++ ['/'] := rfl
  rw [hdef, hrelative, wayOf]
  split
  · rfl
  · rw [if_neg (slashed_eq_dot_iff.not.mpr (ofNames_ne_dot hway))]
    simp [slashed]

/-- The way from the directory of a file is made of the steps from there. -/
theorem toDocroot_eq (hcwd : isAbsolute cwd = true) (h : '\\' ∉ absolute cwd docroot)
    (file : Text) :
    toDocroot cwd file docroot =
      wayOf (steps (normalNames (parent (absolute cwd file)))
        (normalNames (absolute cwd docroot))) := by
  rw [toDocroot_eq_slashed hcwd]
  refine slashed_of_not_mem ?_
  obtain ⟨root, down, hroot, hnames, hdocroot⟩ := exists_absolute_eq_rooted hcwd docroot
  rw [hdocroot, rooted, List.mem_append, not_or] at h
  rw [hdocroot, normalNames_rooted hroot hnames, wayOf]
  split
  · exact List.not_mem_nil
  · simpa using backslash_not_mem_steps _ h.2

/-- Where the way from one directory to another leads from any directory. -/
theorem normalize_join_steps (hroot : IsRoot root) (hdown : ∀ name ∈ down, IsName name)
    (htarget : ∀ name ∈ target, IsName name) (start : List Text) :
    normalize (join (rooted root down) (wayOf (steps start target))) =
      rooted root (down.take (down.length - climb start target) ++
        target.drop (commonLead start target)) := by
  have hway := isStep_of_mem_steps start htarget
  have habsolute : isAbsolute (rooted root down) = true := isAbsolute_root_append hroot _
  have hjoin := isAbsolute_join habsolute (wayOf (steps start target))
  rw [normalize_of_isAbsolute hjoin, root_join_rooted hroot hdown (isAbsolute_wayOf hway),
    normalNames, hjoin, names_join (isAbsolute_wayOf hway), names_rooted hroot hdown,
    names_wayOf hway, foldl_push_steps hdown htarget]

variable (hcwd : isAbsolute cwd = true) (h : '\\' ∉ absolute cwd docroot)
include hcwd h

/-- Where the way for a file leads from any directory: it climbs from there as it would from the
directory of the file. -/
theorem normalize_join_toDocroot (hroot : IsRoot root) (hdown : ∀ name ∈ down, IsName name)
    (file : Text) :
    normalize (join (rooted root down) (toDocroot cwd file docroot)) =
      rooted root
        (down.take (down.length - climb (normalNames (parent (absolute cwd file)))
            (normalNames (absolute cwd docroot))) ++
          (normalNames (absolute cwd docroot)).drop
            (commonLead (normalNames (parent (absolute cwd file)))
              (normalNames (absolute cwd docroot)))) := by
  rw [toDocroot_eq hcwd h]
  refine normalize_join_steps hroot hdown (fun _ => ?_) _
  exact isName_of_mem_normalNames (isAbsolute_absolute hcwd docroot)

/-- It leads to the root of the documents from where climbing ends in what is shared with it. -/
theorem normalize_join_toDocroot_iff (hroot : IsRoot root) (hdown : ∀ name ∈ down, IsName name)
    (file : Text) :
    normalize (join (rooted root down) (toDocroot cwd file docroot)) = absolute cwd docroot ↔
      root = Path.root (absolute cwd docroot) ∧
        down.take (down.length - climb (normalNames (parent (absolute cwd file)))
            (normalNames (absolute cwd docroot))) =
          (normalNames (absolute cwd docroot)).take
            (commonLead (normalNames (parent (absolute cwd file)))
              (normalNames (absolute cwd docroot))) := by
  rw [normalize_join_toDocroot hcwd h hroot hdown]
  obtain ⟨root', target, hroot', htarget, hdocroot⟩ := exists_absolute_eq_rooted hcwd docroot
  rw [hdocroot, normalNames_rooted hroot' htarget, root_rooted hroot' htarget]
  generalize normalNames (parent (absolute cwd file)) = start
  have hnames : ∀ name ∈ down.take (down.length - climb start target) ++
      target.drop (commonLead start target), IsName name := by
    intro name hname
    rcases List.mem_append.mp hname with hname | hname
    · exact hdown name (List.mem_of_mem_take hname)
    · exact htarget name (List.mem_of_mem_drop hname)
  -- What stands behind the shared part of the docroot is on both sides.
  rw [rooted_inj hroot hroot' hnames htarget]
  refine and_congr_right fun _ => ?_
  calc
    down.take (down.length - climb start target) ++ target.drop (commonLead start target) = target ↔
        down.take (down.length - climb start target) ++ target.drop (commonLead start target) =
          target.take (commonLead start target) ++ target.drop (commonLead start target) := by
      rw [List.take_append_drop]
    _ ↔ down.take (down.length - climb start target) =
          target.take (commonLead start target) := List.append_left_inj _

end Splice.Path
