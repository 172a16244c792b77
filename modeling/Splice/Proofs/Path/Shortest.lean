import Splice.Proofs.Path.Docroot
import Splice.Proofs.Path.Joining

/-!
# The shortest way to the root of the documents

The way from the directory of a file climbs to the last directory that it shares with the root of
the documents, and no further, and leads down from there. It is written with slashes only, so that
it misses its end just if one of the names on the way down holds a backslash.

* `Path.Parting` — what two ways down share, and what follows it in each;
* `Path.normalize_join_slashed_iff` — when a way with slashes in place of its backslashes leads to
  its end; and
* `Path.toDocroot_shortest` — the way that is computed, and where it leads.
-/

namespace Splice.Path

variable {start target lead shared climbed down : List Text} {cwd root file docroot path : Text}

/-! ### Where two ways part -/

/-- Two ways down share a lead, the longest that they have in common. -/
structure Parting (start target shared climbed down : List Text) : Prop where
  start_eq : start = shared ++ climbed
  target_eq : target = shared ++ down
  longest : ∀ lead, lead <+: start → lead <+: target → lead.length ≤ shared.length

theorem length_le_commonLead (hstart : lead <+: start) (htarget : lead <+: target) :
    lead.length ≤ commonLead start target := by
  induction lead generalizing start target with
  | nil => exact Nat.zero_le _
  | cons name lead ih =>
    obtain ⟨more, rfl⟩ := hstart
    obtain ⟨more', rfl⟩ := htarget
    have hrest := ih (List.prefix_append lead more) (List.prefix_append lead more')
    simpa [commonLead] using hrest

theorem parting_commonLead (start target : List Text) :
    Parting start target (target.take (commonLead start target))
      (start.drop (commonLead start target)) (target.drop (commonLead start target)) where
  start_eq := by rw [← take_commonLead, List.take_append_drop]
  target_eq := (List.take_append_drop _ _).symm
  longest lead hstart htarget := by
    rw [← take_commonLead, List.length_take, Nat.min_eq_left (commonLead_le_length start target)]
    exact length_le_commonLead hstart htarget

/-! ### The way, step by step -/

theorem wayOf_eq_flatMap (steps : List Text) :
    wayOf steps = steps.flatMap fun name => name ++ ['/'] := by
  induction steps with
  | nil => rfl
  | cons name steps ih =>
    rw [List.flatMap_cons, ← ih, wayOf, if_neg (List.cons_ne_nil _ _), wayOf]
    by_cases hsteps : steps = []
    · simp [hsteps, ofNames_singleton]
    · simp [hsteps, ofNames_cons name hsteps]

theorem wayOf_append (front back : List Text) :
    wayOf (front ++ back) = wayOf front ++ wayOf back := by
  simp only [wayOf_eq_flatMap, List.flatMap_append]

theorem wayOf_eq_nil_iff {steps : List Text} : wayOf steps = [] ↔ steps = [] := by
  cases steps with
  | nil => simp [wayOf]
  | cons name steps => simp [wayOf_eq_flatMap]

/-- What follows a way has its names behind those of the way. -/
theorem names_wayOf_append (h : ∀ name ∈ down, IsStep name) (text : Text) :
    names (wayOf down ++ text) = down ++ names text := by
  induction down with
  | nil => rfl
  | cons name down ih =>
    obtain ⟨hname, hdown⟩ := List.forall_mem_cons.mp h
    have hway : wayOf (name :: down) ++ text = name ++ '/' :: (wayOf down ++ text) := by
      simp [wayOf_eq_flatMap]
    rw [hway, names_append_slash, names_of_isStep hname, ih hdown]
    rfl

theorem steps_eq_nil_iff : steps start target = [] ↔ start = target := by
  constructor
  · intro h
    obtain ⟨hup, hdown⟩ := List.append_eq_nil_iff.mp h
    have hclimb : start.length ≤ commonLead start target :=
      Nat.le_of_sub_eq_zero (by simpa [climb] using hup)
    have hshared := take_commonLead start target
    rwa [List.take_of_length_le hclimb, List.take_of_length_le (List.drop_eq_nil_iff.mp hdown)]
      at hshared
  · rintro rfl
    have hshared := length_le_commonLead (List.prefix_refl start) (List.prefix_refl start)
    simp [steps, climb, Nat.sub_eq_zero_of_le hshared, hshared]

/-! ### Backslashes -/

/-- Does the name hold a backslash? -/
def hasBackslash (name : Text) : Bool := name.contains '\\'

theorem countP_hasBackslash_eq_zero_iff {names : List Text} :
    names.countP hasBackslash = 0 ↔ ∀ name ∈ names, '\\' ∉ name := by
  simp [List.countP_eq_zero, hasBackslash]

theorem backslash_not_mem_slashed (text : Text) : '\\' ∉ slashed text := by
  intro hmem
  obtain ⟨c, -, hc⟩ := List.mem_map.mp hmem
  split at hc
  · exact absurd hc (by decide)
  · rename_i hne
    exact hne hc

theorem slashed_append (front back : Text) :
    slashed (front ++ back) = slashed front ++ slashed back :=
  List.map_append

theorem backslash_not_mem_wayOf {steps : List Text} :
    '\\' ∉ wayOf steps ↔ ∀ name ∈ steps, '\\' ∉ name := by
  simp [wayOf_eq_flatMap]

/-- Double dots hold no backslash. -/
theorem slashed_wayOf_steps (h : ∀ name ∈ target.drop (commonLead start target), '\\' ∉ name) :
    slashed (wayOf (steps start target)) = wayOf (steps start target) := by
  refine slashed_of_not_mem (backslash_not_mem_wayOf.mpr fun name hname => ?_)
  rcases List.mem_append.mp hname with hdots | hdown
  · rw [List.eq_of_mem_replicate hdots]
    decide
  · exact h name hdown

theorem backslash_not_mem_names (h : '\\' ∉ path) : ∀ name ∈ names path, '\\' ∉ name :=
  fun _ hname hmem => h (Text.mem_of_mem_pieces (List.mem_filter.mp hname).1 hmem)

/-- Names without backslashes bring none. -/
theorem countP_foldl_push_le {steps : List Text} (h : ∀ name ∈ steps, '\\' ∉ name) (rooted : Bool)
    (stack : List Text) :
    (steps.foldl (push rooted) stack).countP hasBackslash ≤ stack.countP hasBackslash := by
  induction steps generalizing stack with
  | nil => exact Nat.le_refl _
  | cons name steps ih =>
    obtain ⟨hname, hsteps⟩ := List.forall_mem_cons.mp h
    have hnone : hasBackslash name = false := by simpa [hasBackslash] using hname
    have hpush : (push rooted stack name).countP hasBackslash ≤ stack.countP hasBackslash := by
      unfold push
      split
      · split
        · split <;> simp [hnone]
        · split <;> simp [List.countP_cons, hnone]
      · simp [hnone]
    exact Nat.le_trans (ih hsteps _) hpush

/-- Normalizing brings no backslashes. -/
theorem countP_normalNames_eq_zero (h : '\\' ∉ path) :
    (normalNames path).countP hasBackslash = 0 := by
  have hle := countP_foldl_push_le (backslash_not_mem_names h) (isAbsolute path) []
  rw [normalNames, List.countP_reverse]
  exact Nat.le_zero.mp hle

theorem backslash_not_mem_normalNames (hcwd : '\\' ∉ cwd) (hpath : '\\' ∉ path) :
    ∀ name ∈ normalNames (join cwd path), '\\' ∉ name := by
  refine countP_hasBackslash_eq_zero_iff.mp (countP_normalNames_eq_zero ?_)
  unfold join
  split
  · exact hpath
  · split <;> simp [hcwd, hpath]

/-! ### Where the way leads -/

/-- A way with slashes in place of its backslashes climbs like before. From there it is followed by
names that may be others. -/
theorem normalNames_join_slashed (hroot : IsRoot root) (hstart : ∀ name ∈ start, IsName name)
    (hrelative : isAbsolute (slashed (wayOf (steps start target))) = false) :
    normalNames (join (rooted root start) (slashed (wayOf (steps start target)))) =
      ((names (slashed (wayOf (target.drop (commonLead start target))))).foldl (push true)
        (start.take (commonLead start target)).reverse).reverse := by
  let dots := List.replicate (climb start target) ['.', '.']
  have hjoin :
      isAbsolute (join (rooted root start) (slashed (wayOf (steps start target)))) = true :=
    isAbsolute_join (isAbsolute_root_append hroot _) _
  have hdots : ∀ name ∈ dots, IsStep name := by
    intro name hname
    rw [List.eq_of_mem_replicate hname]
    exact isStep_dots
  -- The steps up have no backslash, so that only the names down are changed.
  have hup : '\\' ∉ wayOf dots := by
    rw [backslash_not_mem_wayOf]
    intro name hname
    rw [List.eq_of_mem_replicate hname]
    decide
  have hway : names (slashed (wayOf (steps start target))) =
      dots ++ names (slashed (wayOf (target.drop (commonLead start target)))) := by
    rw [steps, wayOf_append, slashed_append, slashed_of_not_mem hup, names_wayOf_append hdots]
  rw [normalNames, hjoin, names_join hrelative, names_rooted hroot hstart, hway,
    List.foldl_append, List.foldl_append, foldl_push_climb hstart, sub_climb rfl]

/-- A way that has lost a backslash does not lead to its end: the names that it leads down hold
fewer of them. -/
theorem normalize_join_slashed_ne (hroot : IsRoot root) (hstart : ∀ name ∈ start, IsName name)
    (htarget : ∀ name ∈ target, IsName name)
    (h : ∃ name ∈ target.drop (commonLead start target), '\\' ∈ name) :
    normalize (join (rooted root start) (slashed (wayOf (steps start target)))) ≠
      rooted root target := by
  intro heq
  let shared := start.take (commonLead start target)
  let way := slashed (wayOf (steps start target))
  have hjoin : isAbsolute (join (rooted root start) way) = true :=
    isAbsolute_join (isAbsolute_root_append hroot _) way
  -- The names of both sides hold as many backslashes, but on the left there are those of `shared`
  -- only.
  have hnames : normalNames (join (rooted root start) way) = target := by
    rw [normalize_of_isAbsolute hjoin] at heq
    exact ((rooted_inj (isRoot_root hjoin) hroot
      (fun _ => isName_of_mem_normalNames hjoin) htarget).mp heq).2
  have hmore : shared.countP hasBackslash < target.countP hasBackslash := by
    obtain ⟨name, hname, hmem⟩ := h
    have hdown : 0 < (target.drop (commonLead start target)).countP hasBackslash :=
      List.countP_pos_iff.mpr ⟨name, hname, by simpa [hasBackslash] using hmem⟩
    have hsplit := List.take_append_drop (commonLead start target) target
    rw [← hsplit, List.countP_append, ← take_commonLead]
    exact Nat.lt_add_of_pos_right hdown
  rw [← hnames] at hmore
  refine absurd hmore (Nat.not_lt_of_le ?_)
  cases habsolute : isAbsolute way with
  | true =>
    -- A way that begins with a backslash leads from the root now.
    rw [join, if_pos habsolute, countP_normalNames_eq_zero (backslash_not_mem_slashed _)]
    exact Nat.zero_le _
  | false =>
    rw [normalNames_join_slashed hroot hstart habsolute, List.countP_reverse,
      ← List.countP_reverse (l := shared)]
    exact countP_foldl_push_le (backslash_not_mem_names (backslash_not_mem_slashed _)) true _

theorem normalize_join_slashed_iff (hroot : IsRoot root) (hstart : ∀ name ∈ start, IsName name)
    (htarget : ∀ name ∈ target, IsName name) :
    normalize (join (rooted root start) (slashed (wayOf (steps start target)))) =
      rooted root target ↔
      ∀ name ∈ target.drop (commonLead start target), '\\' ∉ name := by
  constructor
  · intro h name hname hmem
    exact normalize_join_slashed_ne hroot hstart htarget ⟨name, hname, hmem⟩ h
  · intro h
    rw [slashed_wayOf_steps h, normalize_join_steps hroot hstart htarget, sub_climb rfl,
      take_commonLead, List.take_append_drop]

/-! ### The way from a file -/

/-- Paths that do not begin with two slashes lead from the one root of the working directory. -/
theorem exists_absolute_eq_slash (hcwd : Path.root cwd = ['/'])
    (hpath : Path.root path ≠ ['/', '/']) :
    ∃ down, (∀ name ∈ down, IsName name) ∧ absolute cwd path = rooted ['/'] down := by
  have habsolute : isAbsolute cwd = true := isAbsolute_iff.mpr (by simp [hcwd])
  have hjoin := isAbsolute_join habsolute path
  have hroot : Path.root (join cwd path) = ['/'] := by
    by_cases hrooted : isAbsolute path = true
    · rw [join, if_pos hrooted]
      exact (isRoot_root hrooted).resolve_right hpath
    · rw [root_join (by simpa using hrooted) habsolute, hcwd]
  refine ⟨normalNames (join cwd path), fun _ => isName_of_mem_normalNames hjoin, ?_⟩
  rw [absolute, normalize_of_isAbsolute hjoin, hroot]

theorem exists_parent_eq_rooted (hroot : IsRoot root) (h : ∀ name ∈ down, IsName name) :
    ∃ front, (∀ name ∈ front, IsName name) ∧ parent (rooted root down) = rooted root front := by
  rcases down.eq_nil_or_concat' with rfl | ⟨front, name, rfl⟩
  · refine ⟨[], nofun, ?_⟩
    rw [rooted_nil]
    rcases hroot with rfl | rfl <;> rfl
  · have hfront : ∀ other ∈ front, IsName other :=
      fun other hother => h other (List.mem_append_left _ hother)
    exact ⟨front, hfront, parent_rooted hroot hfront (h name (by simp))⟩

/-- The way from the directory of a file to the root of the documents. Both lead down from the one
root, and `down` are the names on the way that the directory of the file does not share. The way is
empty just if the two directories are the same. It climbs from each name of the directory that is
not shared, and goes down by `down`; it leads to the root of the documents, unless a name of `down`
holds a backslash, for which there is none if none is in the working directory and in the path of
the root. -/
theorem toDocroot_shortest (hcwd : Path.root cwd = ['/']) (hfile : Path.root file ≠ ['/', '/'])
    (hdocroot : Path.root docroot ≠ ['/', '/']) :
    ∃ shared climbed down,
      Parting (names (parent (absolute cwd file))) (names (absolute cwd docroot)) shared
        climbed down ∧
      (∀ name ∈ down, IsName name) ∧
      (toDocroot cwd file docroot = [] ↔ parent (absolute cwd file) = absolute cwd docroot) ∧
      ((∀ name ∈ down, '\\' ∉ name) → toDocroot cwd file docroot =
        (List.replicate climbed.length "../".toList).flatten ++
          down.flatMap fun name => name ++ ['/']) ∧
      (normalize (join (parent (absolute cwd file)) (toDocroot cwd file docroot)) =
          absolute cwd docroot ↔
        ∀ name ∈ down, '\\' ∉ name) ∧
      ('\\' ∉ cwd → '\\' ∉ docroot → ∀ name ∈ down, '\\' ∉ name) := by
  have habsolute : isAbsolute cwd = true := isAbsolute_iff.mpr (by simp [hcwd])
  have hslash : IsRoot ['/'] := .inl rfl
  have hway := toDocroot_eq_slashed habsolute file docroot
  have hback : '\\' ∉ cwd → '\\' ∉ docroot →
      ∀ name ∈ normalNames (absolute cwd docroot), '\\' ∉ name := by
    intro hcwdBack hdocrootBack
    have hnames := backslash_not_mem_normalNames hcwdBack hdocrootBack
    have hjoin := isAbsolute_join habsolute docroot
    rwa [absolute, normalize_of_isAbsolute hjoin, normalNames_rooted (isRoot_root hjoin)
      fun _ => isName_of_mem_normalNames hjoin]
  obtain ⟨place, hplace, hplaceEq⟩ := exists_absolute_eq_slash hcwd hfile
  obtain ⟨start, hstart, hstartEq⟩ := exists_parent_eq_rooted hslash hplace
  obtain ⟨target, htarget, htargetEq⟩ := exists_absolute_eq_slash hcwd hdocroot
  rw [hplaceEq, hstartEq, htargetEq, normalNames_rooted hslash hstart,
    normalNames_rooted hslash htarget] at hway
  rw [htargetEq, normalNames_rooted hslash htarget] at hback
  rw [hplaceEq, hstartEq, htargetEq, names_rooted hslash hstart, names_rooted hslash htarget, hway]
  refine ⟨_, _, _, parting_commonLead start target,
    fun name hname => htarget name (List.mem_of_mem_drop hname), ?_, ?_,
    normalize_join_slashed_iff hslash hstart htarget, fun hcwdBack hdocrootBack name hname =>
      hback hcwdBack hdocrootBack name (List.mem_of_mem_drop hname)⟩
  · rw [rooted_inj hslash hslash hstart htarget, slashed, List.map_eq_nil_iff, wayOf_eq_nil_iff,
      steps_eq_nil_iff]
    simp
  · intro hdown
    rw [slashed_wayOf_steps hdown, wayOf_eq_flatMap, steps,
      List.flatMap_append, List.length_drop, climb]
    simp [List.flatMap]

/-- The way from a page to a directory beside its own. -/
theorem toDocroot_besidePages :
    Path.root "/srv/site" = ['/'] ∧ Path.root "pages//guide/../one.html" ≠ ['/', '/'] ∧
      Path.root "../site/assets" ≠ ['/', '/'] ∧
      toDocroot "/srv/site" "pages//guide/../one.html" "../site/assets" = "../assets/" ∧
      normalize (join (parent (absolute "/srv/site" "pages//guide/../one.html"))
          (toDocroot "/srv/site" "pages//guide/../one.html" "../site/assets")) =
        absolute "/srv/site" "../site/assets" := by
  have hcwd : Path.root "/srv/site" = ['/'] := by decide
  have hfile : Path.root "pages//guide/../one.html" ≠ ['/', '/'] := by decide
  have hdocroot : Path.root "../site/assets" ≠ ['/', '/'] := by decide
  obtain ⟨_, _, _, -, -, -, -, hleads, hback⟩ := toDocroot_shortest hcwd hfile hdocroot
  exact ⟨hcwd, hfile, hdocroot, by decide, hleads.mpr (hback (by decide) (by decide))⟩

end Splice.Path
