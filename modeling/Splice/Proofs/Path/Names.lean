import Mathlib.Data.List.Basic
import Splice.Proofs.Tree.Paths

/-!
# Paths as lists of names

A normalized absolute path is a root and the names that lead down from it. What is done to such a
path is done to its names.

* `Path.IsName`, `Path.IsStep` — names of things in a directory, and these together with the double
  dot;
* `Path.rooted` — the path that leads from a root down some names;
* `Path.exists_absolute_eq_rooted` — absolute paths have this form; and
* `Path.join_rooted_ofNames`, `Path.parent_rooted`, `Path.leaf_rooted` — putting such paths
  together, and taking them apart.
-/

namespace Splice

/-- A character that does not separate stands in a piece. -/
theorem Text.exists_mem_pieces {sep c : Char} {text : Text} (hc : c ≠ sep) (h : c ∈ text) :
    ∃ piece ∈ pieces sep text, c ∈ piece := by
  induction text with
  | nil => cases h
  | cons first text ih =>
    rw [pieces]
    split
    · rename_i hsep
      rcases List.mem_cons.mp h with hfirst | hmem
      · exact absurd (hfirst.trans hsep) hc
      · obtain ⟨piece, hpiece, hmem⟩ := ih hmem
        exact ⟨piece, List.mem_cons_of_mem _ hpiece, hmem⟩
    · obtain ⟨piece, rest, hpieces⟩ := List.exists_cons_of_ne_nil (pieces_ne_nil sep text)
      rw [hpieces] at ih ⊢
      simp only [List.mem_cons, exists_eq_or_imp] at h ih ⊢
      rcases h with hfirst | hmem
      · exact .inl (.inl hfirst)
      · exact (ih hmem).imp_left .inr

theorem Text.mem_of_mem_pieces {sep c : Char} {text piece : Text} (hpiece : piece ∈ pieces sep text)
    (h : c ∈ piece) : c ∈ text := by
  induction text generalizing piece with
  | nil =>
    rw [List.mem_singleton.mp hpiece] at h
    cases h
  | cons first text ih =>
    rw [pieces] at hpiece
    split at hpiece
    · rcases List.mem_cons.mp hpiece with rfl | hpiece
      · cases h
      · exact List.mem_cons_of_mem _ (ih hpiece h)
    · obtain ⟨front, rest, hpieces⟩ := List.exists_cons_of_ne_nil (pieces_ne_nil sep text)
      rw [hpieces] at hpiece ih
      rcases List.mem_cons.mp hpiece with rfl | hpiece
      · rcases List.mem_cons.mp h with rfl | h
        · exact List.mem_cons_self
        · exact List.mem_cons_of_mem _ (ih List.mem_cons_self h)
      · exact List.mem_cons_of_mem _ (ih (List.mem_cons_of_mem _ hpiece) h)

theorem Text.not_mem_of_mem_pieces {sep : Char} {text piece : Text} (h : piece ∈ pieces sep text) :
    sep ∉ piece := by
  induction text generalizing piece with
  | nil =>
    rw [List.mem_singleton.mp h]
    exact List.not_mem_nil
  | cons c text ih =>
    rw [pieces] at h
    split at h
    · rcases List.mem_cons.mp h with rfl | h
      · exact List.not_mem_nil
      · exact ih h
    · rename_i hc
      obtain ⟨first, rest, hpieces⟩ := List.exists_cons_of_ne_nil (pieces_ne_nil sep text)
      rw [hpieces] at h ih
      rcases List.mem_cons.mp h with rfl | h
      · have hfirst : sep ∉ first := ih List.mem_cons_self
        simp [Ne.symm hc, hfirst]
      · exact ih (List.mem_cons_of_mem _ h)

namespace Path

/-! ### Names -/

/-- The name leads somewhere from a directory. -/
structure IsStep (name : Text) : Prop where
  ne_nil : name ≠ []
  no_slash : '/' ∉ name
  ne_dot : name ≠ ['.']

/-- The name is that of something in a directory. -/
structure IsName (name : Text) : Prop extends IsStep name where
  ne_dots : name ≠ ['.', '.']

instance (name : Text) : Decidable (IsName name) :=
  decidable_of_iff (((name ≠ [] ∧ '/' ∉ name) ∧ name ≠ ['.']) ∧ name ≠ ['.', '.'])
    ⟨fun h => ⟨⟨h.1.1.1, h.1.1.2, h.1.2⟩, h.2⟩,
      fun h => ⟨⟨⟨h.ne_nil, h.no_slash⟩, h.ne_dot⟩, h.ne_dots⟩⟩

variable {steps down : List Text} {name root path base : Text}

theorem isStep_dots : IsStep ['.', '.'] := ⟨by decide, by decide, by decide⟩

theorem isStep_of_mem_names (h : name ∈ names path) : IsStep name := by
  obtain ⟨hpiece, hproper⟩ := List.mem_filter.mp h
  have hne : name ≠ [] ∧ name ≠ ['.'] := of_decide_eq_true hproper
  exact ⟨hne.1, Text.not_mem_of_mem_pieces hpiece, hne.2⟩

theorem names_append_slash (before after : Text) :
    names (before ++ '/' :: after) = names before ++ names after := by
  rw [names, Text.pieces_append, List.filter_append]
  rfl

theorem names_slash (path : Text) : names ('/' :: path) = names path :=
  names_append_slash [] path

theorem names_of_isStep (h : IsStep name) : names name = [name] := by
  rw [names, Text.pieces_of_not_mem h.no_slash]
  simp [h.ne_nil, h.ne_dot]

theorem ofNames_cons (name : Text) (h : steps ≠ []) :
    ofNames (name :: steps) = name ++ '/' :: ofNames steps := by
  rw [ofNames, List.intercalate_cons_of_ne_nil h, List.append_assoc]
  rfl

theorem ofNames_singleton (name : Text) : ofNames [name] = name :=
  List.intercalate_singleton

theorem names_ofNames (h : ∀ name ∈ steps, IsStep name) : names (ofNames steps) = steps := by
  induction steps with
  | nil => rfl
  | cons name steps ih =>
    have hname := h name List.mem_cons_self
    by_cases hsteps : steps = []
    · subst hsteps
      rw [ofNames_singleton, names_of_isStep hname]
    · rw [ofNames_cons name hsteps, names_append_slash, names_of_isStep hname,
        ih fun other hother => h other (List.mem_cons_of_mem _ hother)]
      rfl

theorem ofNames_ne_nil (h : ∀ name ∈ steps, IsStep name) (hsteps : steps ≠ []) :
    ofNames steps ≠ [] := by
  intro hnil
  have hnames := names_ofNames h
  rw [hnil] at hnames
  exact hsteps hnames.symm

theorem mem_ofNames_iff {c : Char} (hc : c ≠ '/') :
    c ∈ ofNames steps ↔ ∃ name ∈ steps, c ∈ name := by
  induction steps with
  | nil => simp [ofNames]
  | cons name steps ih =>
    by_cases hsteps : steps = []
    · subst hsteps
      simp [ofNames_singleton]
    · simp [ofNames_cons name hsteps, ih, hc]

theorem ofNames_append {front : List Text} (hfront : front ≠ []) (hsteps : steps ≠ []) :
    ofNames (front ++ steps) = ofNames front ++ '/' :: ofNames steps := by
  induction front with
  | nil => exact absurd rfl hfront
  | cons name front ih =>
    by_cases hnil : front = []
    · subst hnil
      exact (ofNames_cons name hsteps).trans (by rw [ofNames_singleton])
    · rw [List.cons_append, ofNames_cons _ (List.append_ne_nil_of_left_ne_nil hnil _), ih hnil,
        ofNames_cons _ hnil, List.append_assoc]
      rfl

/-- Steps do not begin at the root. -/
theorem isAbsolute_ofNames_append (hsteps : steps ≠ []) (h : ∀ name ∈ steps, IsStep name)
    (rest : Text) : isAbsolute (ofNames steps ++ rest) = false := by
  obtain ⟨name, steps, rfl⟩ := List.exists_cons_of_ne_nil hsteps
  obtain ⟨hne, hslash, -⟩ := h name List.mem_cons_self
  obtain ⟨c, name, rfl⟩ := List.exists_cons_of_ne_nil hne
  obtain ⟨hc, -⟩ := List.ne_and_not_mem_of_not_mem_cons hslash
  have hhead : ∃ tail, ofNames ((c :: name) :: steps) ++ rest = c :: tail := by
    by_cases hnil : steps = []
    · subst hnil
      rw [ofNames_singleton]
      exact ⟨_, rfl⟩
    · rw [ofNames_cons _ hnil]
      exact ⟨_, rfl⟩
  obtain ⟨tail, htail⟩ := hhead
  rw [htail, isAbsolute]
  intro _ hcons
  exact hc (List.cons.inj hcons).1.symm

theorem isAbsolute_ofNames (h : ∀ name ∈ steps, IsStep name) :
    isAbsolute (ofNames steps) = false := by
  by_cases hsteps : steps = []
  · subst hsteps
    rfl
  · have habsolute := isAbsolute_ofNames_append hsteps h []
    rwa [List.append_nil] at habsolute

/-- Steps do not end with a slash. -/
theorem getLast?_ofNames (h : ∀ name ∈ steps, IsStep name) :
    (ofNames steps).getLast? ≠ some '/' := by
  rcases steps.eq_nil_or_concat' with rfl | ⟨front, name, rfl⟩
  · simp [ofNames]
  · have hname := h name (by simp)
    have hlast : name.getLast? ≠ some '/' :=
      fun hlast => hname.no_slash (List.mem_of_getLast? hlast)
    obtain ⟨c, hc⟩ := Option.isSome_iff_exists.mp (List.getLast?_isSome.mpr hname.ne_nil)
    by_cases hfront : front = []
    · subst hfront
      rwa [List.nil_append, ofNames_singleton]
    · rw [ofNames_append hfront (List.cons_ne_nil _ _), ofNames_singleton, List.getLast?_append,
        List.getLast?_cons, hc]
      rwa [hc] at hlast

theorem names_join (h : isAbsolute path = false) (base : Text) :
    names (join base path) = names base ++ names path := by
  rw [join, h]
  simp only [Bool.false_eq_true, if_false]
  split
  · rename_i hbase
    rcases Bool.or_eq_true_iff.mp hbase with hempty | hslash
    · rw [List.isEmpty_iff.mp hempty]
      rfl
    · obtain ⟨front, rfl⟩ := List.getLast?_eq_some_iff.mp (of_decide_eq_true hslash)
      have hempty : names [] = [] := rfl
      rw [List.append_assoc, List.singleton_append, names_append_slash, names_append_slash, hempty,
        List.append_nil]
  · exact names_append_slash base path

/-! ### Double dots -/

theorem foldl_push_names (h : ∀ name ∈ steps, name ≠ ['.', '.']) (rooted : Bool)
    (stack : List Text) : steps.foldl (push rooted) stack = steps.reverse ++ stack := by
  induction steps generalizing stack with
  | nil => rfl
  | cons name steps ih =>
    have hpush : push rooted stack name = name :: stack := if_neg (h name List.mem_cons_self)
    rw [List.foldl_cons, hpush, ih fun other hother => h other (List.mem_cons_of_mem _ hother),
      List.reverse_cons, List.append_assoc]
    rfl

/-- Each double dot takes one name away, down to the root. -/
theorem foldl_push_dots {stack : List Text} (h : ∀ name ∈ stack, name ≠ ['.', '.']) (count : Nat) :
    (List.replicate count ['.', '.']).foldl (push true) stack = stack.drop count := by
  induction count generalizing stack with
  | zero => rfl
  | succ count ih =>
    rw [List.replicate_succ, List.foldl_cons]
    cases stack with
    | nil => exact (ih h).trans (by rw [List.drop_nil, List.drop_nil])
    | cons top stack =>
      have hpush : push true (top :: stack) ['.', '.'] = stack := if_neg (h top List.mem_cons_self)
      rw [hpush, List.drop_succ_cons]
      exact ih fun other hother => h other (List.mem_cons_of_mem _ hother)

theorem isName_foldl_push (h : ∀ name ∈ steps, IsStep name) {stack : List Text}
    (hstack : ∀ name ∈ stack, IsName name) :
    ∀ name ∈ steps.foldl (push true) stack, IsName name := by
  induction steps generalizing stack with
  | nil => exact hstack
  | cons step steps ih =>
    rw [List.foldl_cons]
    refine ih (fun other hother => h other (List.mem_cons_of_mem _ hother)) ?_
    intro name hname
    unfold push at hname
    split at hname
    · split at hname
      · simp at hname
      · rename_i top rest
        have htop : top ≠ ['.', '.'] := (hstack top List.mem_cons_self).ne_dots
        rw [if_neg htop] at hname
        exact hstack name (List.mem_cons_of_mem _ hname)
    · rename_i hstep
      rcases List.mem_cons.mp hname with rfl | hname
      · exact ⟨h name List.mem_cons_self, hstep⟩
      · exact hstack name hname

theorem isName_of_mem_normalNames (hpath : isAbsolute path = true) (h : name ∈ normalNames path) :
    IsName name := by
  rw [normalNames, hpath] at h
  have hsteps : ∀ other ∈ names path, IsStep other := fun other => isStep_of_mem_names
  exact isName_foldl_push hsteps (by simp) name (List.mem_reverse.mp h)

/-! ### Rooted paths -/

/-- The slashes with which an absolute path can begin once it is normalized. -/
def IsRoot (root : Text) : Prop := root = ['/'] ∨ root = ['/', '/']

/-- The path that leads from a root down the names. -/
def rooted (root : Text) (down : List Text) : Text := root ++ ofNames down

theorem isRoot_root (h : isAbsolute path = true) : IsRoot (Path.root path) := by
  unfold isAbsolute at h
  split at h
  · unfold Path.root
    split <;> simp_all [IsRoot]
  · cases h

/-- The root of a path ends where no slash follows. -/
theorem root_append (hroot : IsRoot root) {text : Text} (h : isAbsolute text = false) :
    Path.root (root ++ text) = root := by
  cases text with
  | nil => rcases hroot with rfl | rfl <;> rfl
  | cons c text =>
    have hc : c ≠ '/' := by
      rintro rfl
      cases h
    rcases hroot with rfl | rfl
    · simp [Path.root, hc]
    · simp [Path.root, hc]

theorem names_root_append (hroot : IsRoot root) (text : Text) :
    names (root ++ text) = names text := by
  rcases hroot with rfl | rfl
  · exact names_slash text
  · exact (names_slash _).trans (names_slash text)

theorem isAbsolute_root_append (hroot : IsRoot root) (text : Text) :
    isAbsolute (root ++ text) = true := by
  rcases hroot with rfl | rfl <;> rfl

theorem names_rooted (hroot : IsRoot root) (h : ∀ name ∈ down, IsName name) :
    names (rooted root down) = down := by
  rw [rooted, names_root_append hroot, names_ofNames fun name hname => (h name hname).toIsStep]

theorem root_rooted (hroot : IsRoot root) (h : ∀ name ∈ down, IsName name) :
    Path.root (rooted root down) = root :=
  root_append hroot (isAbsolute_ofNames fun name hname => (h name hname).toIsStep)

theorem rooted_inj {root' : Text} {down' : List Text} (hroot : IsRoot root) (hroot' : IsRoot root')
    (h : ∀ name ∈ down, IsName name) (h' : ∀ name ∈ down', IsName name) :
    rooted root down = rooted root' down' ↔ root = root' ∧ down = down' := by
  constructor
  · intro heq
    have hroots := congrArg Path.root heq
    rw [root_rooted hroot h, root_rooted hroot' h'] at hroots
    have hnames := congrArg names heq
    rw [names_rooted hroot h, names_rooted hroot' h'] at hnames
    exact ⟨hroots, hnames⟩
  · rintro ⟨rfl, rfl⟩
    rfl

theorem normalNames_rooted (hroot : IsRoot root) (h : ∀ name ∈ down, IsName name) :
    normalNames (rooted root down) = down := by
  rw [normalNames, names_rooted hroot h, foldl_push_names fun name hname => (h name hname).ne_dots,
    List.append_nil, List.reverse_reverse]

theorem normalize_of_isAbsolute (h : isAbsolute path = true) :
    normalize path = rooted (Path.root path) (normalNames path) := by
  have hne : (Path.root path ++ ofNames (normalNames path)).isEmpty = false := by
    rcases isRoot_root h with hroot | hroot <;> rw [hroot] <;> rfl
  rw [normalize, hne]
  rfl

theorem normalize_rooted (hroot : IsRoot root) (h : ∀ name ∈ down, IsName name) :
    normalize (rooted root down) = rooted root down := by
  have habsolute : isAbsolute (rooted root down) = true := isAbsolute_root_append hroot _
  rw [normalize_of_isAbsolute habsolute, root_rooted hroot h, normalNames_rooted hroot h]

/-- A normalized absolute path is the same from everywhere. -/
theorem absolute_rooted (hroot : IsRoot root) (h : ∀ name ∈ down, IsName name) (cwd : Text) :
    absolute cwd (rooted root down) = rooted root down := by
  have habsolute : isAbsolute (rooted root down) = true := isAbsolute_root_append hroot _
  rw [absolute, join, if_pos habsolute, normalize_rooted hroot h]

theorem isAbsolute_join (h : isAbsolute base = true) (path : Text) :
    isAbsolute (join base path) = true := by
  unfold join
  split
  · assumption
  · unfold isAbsolute at h
    split at h
    · split <;> rfl
    · cases h

/-- Absolute paths lead from a root down some names. -/
theorem exists_absolute_eq_rooted {cwd : Text} (h : isAbsolute cwd = true) (path : Text) :
    ∃ root down, IsRoot root ∧ (∀ name ∈ down, IsName name) ∧
      absolute cwd path = rooted root down := by
  have habsolute := isAbsolute_join h path
  exact ⟨_, _, isRoot_root habsolute, fun _ => isName_of_mem_normalNames habsolute,
    normalize_of_isAbsolute habsolute⟩

theorem isAbsolute_absolute {cwd : Text} (h : isAbsolute cwd = true) (path : Text) :
    isAbsolute (absolute cwd path) = true := by
  obtain ⟨root, down, hroot, -, heq⟩ := exists_absolute_eq_rooted h path
  rw [heq]
  exact isAbsolute_root_append hroot _

/-! ### Putting paths together and taking them apart -/

theorem rooted_nil (root : Text) : rooted root [] = root :=
  List.append_nil root

theorem getLast?_root (hroot : IsRoot root) : root.getLast? = some '/' := by
  rcases hroot with rfl | rfl <;> rfl

theorem getLast?_rooted (h : ∀ name ∈ down, IsName name) (hdown : down ≠ []) :
    (rooted root down).getLast? ≠ some '/' := by
  have hsteps : ∀ name ∈ down, IsStep name := fun name hname => (h name hname).toIsStep
  obtain ⟨c, hc⟩ := Option.isSome_iff_exists.mp
    (List.getLast?_isSome.mpr (ofNames_ne_nil hsteps hdown))
  have hlast := getLast?_ofNames hsteps
  rw [hc] at hlast
  rw [rooted, List.getLast?_append, hc]
  exact hlast

theorem join_rooted (hroot : IsRoot root) (h : ∀ name ∈ down, IsName name)
    (hpath : isAbsolute path = false) :
    join (rooted root down) path =
      if down = [] then root ++ path else rooted root down ++ '/' :: path := by
  have hempty : (rooted root down).isEmpty = false := by
    rcases hroot with rfl | rfl <;> rfl
  rw [join, hpath, hempty]
  by_cases hdown : down = []
  · subst hdown
    simp [rooted_nil, getLast?_root hroot]
  · simp [getLast?_rooted h hdown, hdown]

/-- Steps lead on from where a path leads. -/
theorem join_rooted_ofNames (hroot : IsRoot root) (h : ∀ name ∈ down, IsName name)
    (hsteps : ∀ name ∈ steps, IsStep name) (hne : steps ≠ []) :
    join (rooted root down) (ofNames steps) = rooted root (down ++ steps) := by
  rw [join_rooted hroot h (isAbsolute_ofNames hsteps)]
  by_cases hdown : down = []
  · subst hdown
    rfl
  · rw [if_neg hdown, rooted, rooted, ofNames_append hdown hne, List.append_assoc]

theorem join_rooted_name (hroot : IsRoot root) (h : ∀ other ∈ down, IsName other)
    (hname : IsName name) : join (rooted root down) name = rooted root (down ++ [name]) := by
  have hsteps : ∀ other ∈ [name], IsStep other := by simpa using hname.toIsStep
  have hjoin := join_rooted_ofNames hroot h hsteps (List.cons_ne_nil _ _)
  rwa [ofNames_singleton] at hjoin

theorem root_join_rooted (hroot : IsRoot root) (h : ∀ name ∈ down, IsName name)
    (hpath : isAbsolute path = false) : Path.root (join (rooted root down) path) = root := by
  rw [join_rooted hroot h hpath]
  by_cases hdown : down = []
  · rw [if_pos hdown, root_append hroot hpath]
  · rw [if_neg hdown, rooted, List.append_assoc]
    exact root_append hroot
      (isAbsolute_ofNames_append hdown (fun name hname => (h name hname).toIsStep) _)

theorem ne_slash_of_mem_reverse (hname : '/' ∉ name) :
    ∀ c ∈ name.reverse, decide (c ≠ '/') = true := by
  intro c hc
  rw [List.mem_reverse] at hc
  rw [decide_eq_true_eq]
  rintro rfl
  exact hname hc

theorem leaf_append (hname : '/' ∉ name) {front : Text} (hfront : front.getLast? = some '/') :
    leaf (front ++ name) = name := by
  obtain ⟨front, rfl⟩ := List.getLast?_eq_some_iff.mp hfront
  rw [leaf, List.reverse_append, List.takeWhile_append_of_pos (ne_slash_of_mem_reverse hname),
    List.reverse_append]
  simp

theorem parent_append (hname : '/' ∉ name) {front : Text} (hfront : front.getLast? = some '/') :
    parent (front ++ name) =
      if front.all (· = '/') then front else (front.reverse.dropWhile (· = '/')).reverse := by
  obtain ⟨front, rfl⟩ := List.getLast?_eq_some_iff.mp hfront
  have hhead : ((front ++ ['/'] ++ name).reverse.dropWhile (· ≠ '/')).reverse = front ++ ['/'] := by
    rw [List.reverse_append, List.dropWhile_append_of_pos (ne_slash_of_mem_reverse hname),
      List.reverse_append]
    simp
  rw [parent, hhead]

/-- A path in a directory is taken apart into this directory and a name. -/
theorem parent_append_slash (hname : '/' ∉ name) (hne : path ≠ [])
    (hpath : path.getLast? ≠ some '/') : parent (path ++ '/' :: name) = path := by
  obtain ⟨c, hc⟩ := Option.isSome_iff_exists.mp (List.getLast?_isSome.mpr hne)
  obtain ⟨front, rfl⟩ := List.getLast?_eq_some_iff.mp hc
  have hslash : c ≠ '/' := by
    rintro rfl
    exact hpath hc
  rw [List.append_cons, parent_append hname (by simp)]
  simp [hslash]

theorem leaf_rooted (hroot : IsRoot root) (hname : IsName name) :
    leaf (rooted root (down ++ [name])) = name := by
  by_cases hdown : down = []
  · subst hdown
    rw [List.nil_append, rooted, ofNames_singleton]
    exact leaf_append hname.no_slash (getLast?_root hroot)
  · rw [rooted, ofNames_append hdown (List.cons_ne_nil _ _), ofNames_singleton, List.append_cons,
      ← List.append_assoc]
    exact leaf_append hname.no_slash (by simp)

theorem parent_rooted (hroot : IsRoot root) (h : ∀ other ∈ down, IsName other)
    (hname : IsName name) : parent (rooted root (down ++ [name])) = rooted root down := by
  by_cases hdown : down = []
  · subst hdown
    rw [List.nil_append, rooted, ofNames_singleton,
      parent_append hname.no_slash (getLast?_root hroot), rooted_nil]
    rcases hroot with rfl | rfl <;> rfl
  · rw [rooted, ofNames_append hdown (List.cons_ne_nil _ _), ofNames_singleton, ← List.append_assoc]
    have hne : rooted root down ≠ [] := by
      rcases hroot with rfl | rfl <;> simp [rooted]
    exact parent_append_slash hname.no_slash hne (getLast?_rooted h hdown)

end Path

end Splice
