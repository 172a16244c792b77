import Mathlib.Data.List.Induction
import Mathlib.Data.List.TakeWhile
import Splice.Proofs.Path.Names

/-!
# Joined paths

Joining keeps the names of both paths, unless the second one is absolute, and a path has the names
of its parent and its leaf.

* `Path.join_assoc`, `Path.join_eq_nil_iff` — paths that are joined;
* `Path.names_eq_append` — the names of a path are those of its parent and its leaf; and
* `Path.root_parent`, `Path.root_join` — the root is that of the parent, and of the path joined to.
-/

namespace Splice.Path

variable {base directory path : Text}

/-! ### Joining -/

theorem join_nil (path : Text) : join [] path = path := by
  unfold join
  split
  · rfl
  · rfl

theorem isAbsolute_append (h : directory ≠ []) (path : Text) :
    isAbsolute (directory ++ path) = isAbsolute directory := by
  obtain ⟨c, rest, rfl⟩ := List.exists_cons_of_ne_nil h
  by_cases hc : c = '/'
  · subst hc
    rfl
  · simp [isAbsolute, hc]

theorem isAbsolute_join_relative (hdirectory : directory ≠ []) (hpath : isAbsolute path = false) :
    isAbsolute (join directory path) = isAbsolute directory := by
  rw [join, hpath]
  simp only [Bool.false_eq_true, if_false]
  split <;> exact isAbsolute_append hdirectory _

theorem join_ne_nil (hpath : path ≠ []) (directory : Text) : join directory path ≠ [] := by
  unfold join
  split
  · exact hpath
  · split <;> simp [hpath]

theorem getLast?_join (hpath : path ≠ []) (base : Text) :
    (join base path).getLast? = path.getLast? := by
  unfold join
  split
  · rfl
  · split
    · exact List.getLast?_append_of_ne_nil base hpath
    · rw [List.append_cons]
      exact List.getLast?_append_of_ne_nil _ hpath

theorem join_append (hdirectory : directory ≠ []) (base rest : Text) :
    join base (directory ++ rest) = join base directory ++ rest := by
  unfold join
  rw [isAbsolute_append hdirectory]
  split
  · rfl
  · split <;> simp

theorem join_assoc (hdirectory : directory ≠ []) (base path : Text) :
    join base (join directory path) = join (join base directory) path := by
  by_cases hpath : isAbsolute path = true
  · simp [join, hpath]
  · have hlast := getLast?_join hdirectory base
    have hne := join_ne_nil hdirectory base
    rw [join.eq_1 (join base directory), join.eq_1 directory, if_neg hpath, if_neg hpath,
      hlast]
    simp only [List.isEmpty_eq_false_iff.mpr hdirectory, List.isEmpty_eq_false_iff.mpr hne]
    split <;> exact join_append hdirectory base _

theorem join_eq_nil_iff : join directory path = [] ↔ directory = [] ∧ path = [] := by
  constructor
  · intro h
    have hpath : path = [] := Classical.byContradiction fun hpath => join_ne_nil hpath directory h
    refine ⟨?_, hpath⟩
    rw [hpath] at h
    unfold join at h
    simp only [isAbsolute, Bool.false_eq_true, if_false, List.append_nil] at h
    split at h
    · exact h
    · simp at h
  · intro h
    obtain ⟨hdirectory, hpath⟩ := h
    rw [hdirectory, hpath]
    rfl

/-! ### Parents and leaves -/

theorem leaf_eq_nil_iff : leaf path = [] ↔ path = [] ∨ path.getLast? = some '/' := by
  rcases path.eq_nil_or_concat' with rfl | ⟨front, c, rfl⟩
  · simp [leaf]
  · by_cases hc : c = '/' <;> simp [leaf, hc]

theorem leaf_join_eq_nil (h : leaf path = []) (base : Text) :
    leaf (join base path) = [] := by
  by_cases hpath : path = []
  · subst hpath
    unfold join
    rw [leaf_eq_nil_iff]
    simp only [isAbsolute, Bool.false_eq_true, if_false, List.append_nil]
    split
    · rename_i hslash
      simpa using hslash
    · exact .inr List.getLast?_concat
  · rw [leaf_eq_nil_iff] at h ⊢
    rw [getLast?_join hpath]
    exact .inr (h.resolve_left hpath)

/-- Slashes at the end of a path make no difference to its names. -/
theorem names_dropSlashes (path : Text) :
    names (path.reverse.dropWhile (· = '/')).reverse = names path := by
  induction path using List.reverseRecOn with
  | nil => rfl
  | append_singleton path c ih =>
    rw [List.reverse_append, List.reverse_singleton, List.singleton_append, List.dropWhile_cons]
    split
    · rename_i hc
      rw [ih, of_decide_eq_true hc, names_append_slash]
      exact (List.append_nil _).symm
    · simp

/-- What is in front of the leaf ends with a slash, unless it is empty; the parent is the same
without slashes at its end, or made of slashes only. -/
theorem exists_front (path : Text) :
    ∃ front, path = front ++ leaf path ∧ (front = [] ∨ front.getLast? = some '/') ∧
      parent path =
        if front.all (· = '/') then front else (front.reverse.dropWhile (· = '/')).reverse := by
  refine ⟨(path.reverse.dropWhile (· ≠ '/')).reverse, ?_, ?_, rfl⟩
  · have hreverse := congrArg List.reverse
      (List.takeWhile_append_dropWhile (p := fun c => decide (c ≠ '/')) (l := path.reverse))
    rw [List.reverse_append, List.reverse_reverse] at hreverse
    exact hreverse.symm
  · cases hrest : path.reverse.dropWhile (· ≠ '/') with
    | nil => exact .inl rfl
    | cons c rest =>
      have hhead := List.head?_dropWhile_not (fun c => decide (c ≠ '/')) path.reverse
      rw [hrest] at hhead
      have hc : c = '/' := by simpa using hhead
      rw [hc, List.reverse_cons]
      exact .inr List.getLast?_concat

/-- The names of a path are those of its parent and its leaf. -/
theorem names_eq_append (path : Text) :
    names path = names (parent path) ++ names (leaf path) := by
  obtain ⟨front, hpath, hfront, hparent⟩ := exists_front path
  have hnames : names (parent path) = names front := by
    rw [hparent]
    split
    · rfl
    · exact names_dropSlashes front
  rw [hnames]
  rcases hfront with hnil | hlast
  · rw [hnil, List.nil_append] at hpath
    rw [hnil, ← hpath]
    rfl
  · obtain ⟨before, hbefore⟩ := List.getLast?_eq_some_iff.mp hlast
    have hsplit : names path = names before ++ names (leaf path) := by
      conv_lhs => rw [hpath, hbefore, List.append_assoc, List.singleton_append, names_append_slash]
    rw [hsplit, hbefore, names_append_slash]
    exact congrArg (· ++ names (leaf path)) (List.append_nil _).symm

theorem names_parent (h : leaf path = []) : names path = names (parent path) := by
  rw [names_eq_append, h]
  exact List.append_nil _

theorem slash_not_mem_leaf (path : Text) : '/' ∉ leaf path := by
  intro hmem
  rw [leaf, List.mem_reverse] at hmem
  simpa using List.mem_takeWhile_imp hmem

theorem isAbsolute_leaf (path : Text) : isAbsolute (leaf path) = false := by
  cases hleaf : leaf path with
  | nil => rfl
  | cons c rest =>
    have hslash := slash_not_mem_leaf path
    rw [hleaf] at hslash
    have hc : c ≠ '/' := fun hc => hslash (by rw [hc]; exact List.mem_cons_self)
    simp [isAbsolute, hc]

/-! ### Roots -/

theorem isAbsolute_iff : isAbsolute path = true ↔ root path ≠ [] := by
  unfold isAbsolute root
  split <;> split <;> simp_all

/-- A path begins with the slashes of its front, unless that is made of slashes which go on behind
it. -/
theorem root_append_eq {rest : Text} (h : base.all (· = '/') = true → isAbsolute rest = false) :
    root (base ++ rest) = root base := by
  have hrest (hall : base.all (· = '/') = true) : ∀ c tail, rest = c :: tail → c ≠ '/' := by
    intro c tail heq hc
    have hrelative := h hall
    rw [heq, hc] at hrelative
    cases hrelative
  -- No more than three characters decide about the root.
  match base with
  | [] =>
    cases rest with
    | nil => rfl
    | cons c tail => simp [root, hrest rfl c tail rfl]
  | [a] =>
    by_cases ha : a = '/'
    · cases rest with
      | nil => rfl
      | cons c tail => simp [root, ha, hrest (by simp [ha]) c tail rfl]
    · simp [root, ha]
  | [a, b] =>
    by_cases ha : a = '/'
    · by_cases hb : b = '/'
      · cases rest with
        | nil => rfl
        | cons c tail => simp [root, ha, hb, hrest (by simp [ha, hb]) c tail rfl]
      · simp [root, ha, hb]
    · simp [root, ha]
  | a :: b :: d :: more =>
    by_cases ha : a = '/' <;> by_cases hb : b = '/' <;> by_cases hd : d = '/' <;>
      simp [root, ha, hb, hd]

theorem root_parent (path : Text) : root (parent path) = root path := by
  obtain ⟨front, hpath, -, hparent⟩ := exists_front path
  have hfront : root path = root front := by
    conv_lhs => rw [hpath]
    exact root_append_eq fun _ => isAbsolute_leaf path
  rw [hparent, hfront]
  split
  · rfl
  · rename_i hall
    have hsplit : front = (front.reverse.dropWhile (· = '/')).reverse ++
        (front.reverse.takeWhile (· = '/')).reverse := by
      rw [← List.reverse_append, List.takeWhile_append_dropWhile, List.reverse_reverse]
    conv_rhs => rw [hsplit]
    refine (root_append_eq fun hslashes => absurd ?_ hall).symm
    rw [hsplit, List.all_append, hslashes, Bool.true_and, List.all_reverse, List.all_eq_true]
    exact fun c hc => by simpa using List.mem_takeWhile_imp hc

theorem isAbsolute_parent (path : Text) : isAbsolute (parent path) = isAbsolute path := by
  rw [Bool.eq_iff_iff, isAbsolute_iff, isAbsolute_iff, root_parent]

theorem root_join (hpath : isAbsolute path = false) (hbase : isAbsolute base = true) :
    root (join base path) = root base := by
  have hne : base ≠ [] := by
    intro hnil
    rw [hnil] at hbase
    cases hbase
  unfold join
  rw [hpath]
  simp only [Bool.false_eq_true, if_false]
  split
  · exact root_append_eq fun _ => hpath
  · rename_i hlast
    refine root_append_eq fun hall => absurd ?_ hlast
    obtain ⟨c, hc⟩ := Option.isSome_iff_exists.mp (List.getLast?_isSome.mpr hne)
    have hslash := List.all_eq_true.mp hall c (List.mem_of_getLast? hc)
    simp [hc, of_decide_eq_true hslash]

end Splice.Path
