import Mathlib.Data.List.Perm.Subperm
import Splice.Proofs.Tree.Places

/-!
# Closed trees

Everything in a tree stands in a directory of it, so that a path is followed wherever its names
lead: only what stands at the end of a path without double dots, not what is on the way, decides
what is found there.

* `Tree.Closed` — every entry stands in a directory, and the working directory is one;
* `Tree.walk`, `Tree.placeOf` — the place that names, or a path, lead to if nothing is in the way;
* `Tree.follow_eq_walk` — names lead to no other place;
* `Tree.locate_resolve` — where a path leads that is resolved from the working directory;
* `Path.Straight`, `Tree.find?_straight_iff` — what a path without double dots finds; and
* `Tree.Grows` — another tree has the same directories and files, and perhaps more.
-/

namespace Splice

open Splice.Path (IsName)

namespace Tree

/-- Everything stands in a directory, the working directory is there, and names are as usual. -/
structure Closed (tree : Tree) : Prop extends Proper tree where
  parent : ∀ item ∈ tree.entries, tree.entry? item.1.dropLast = some .directory
  here : tree.entry? tree.here = some .directory

instance (tree : Tree) : Decidable tree.Closed :=
  decidable_of_iff
    (tree.Proper ∧ (∀ item ∈ tree.entries, tree.entry? item.1.dropLast = some .directory) ∧
      tree.entry? tree.here = some .directory)
    ⟨fun h => ⟨h.1, h.2.1, h.2.2⟩, fun h => ⟨h.toProper, h.parent, h.here⟩⟩

variable {tree : Tree} {place target : Place} {name : Text} {names : List Text}

/-- The directory in which something stands. -/
theorem Closed.directory (h : tree.Closed) (hthere : (tree.entry? (place ++ [name])).isSome) :
    tree.entry? place = some .directory := by
  obtain ⟨entry, hmem⟩ := (isSome_entry?_iff (by simp)).mp hthere
  have hparent := h.parent _ hmem
  rwa [List.dropLast_concat] at hparent

theorem Closed.isOpen (h : tree.Closed) (hthere : (tree.entry? place).isSome) :
    tree.Open place := by
  induction place using List.reverseRecOn with
  | nil => exact open_nil tree
  | append_singleton place name ih =>
    have hplace := h.directory hthere
    exact open_concat_iff.mpr ⟨ih (by rw [hplace]; rfl), hplace⟩

/-- What stands above a directory is a directory. -/
theorem Closed.above (h : tree.Closed) (hplace : tree.entry? place = some .directory) :
    tree.entry? place.dropLast = some .directory := by
  rcases place.eq_nil_or_concat' with rfl | ⟨front, name, rfl⟩
  · rfl
  · rw [List.dropLast_concat]
    exact h.directory (by rw [hplace]; rfl)

/-- The names of a place are names, without null characters. -/
theorem Proper.isName_of_entry? (h : tree.Proper) (hthere : (tree.entry? place).isSome)
    (hname : name ∈ place) : IsName name ∧ '\x00' ∉ name := by
  have hplace : place ≠ [] := List.ne_nil_of_mem hname
  obtain ⟨entry, hmem⟩ := (isSome_entry?_iff hplace).mp hthere
  exact ⟨h.isName _ hmem name hname, h.no_null _ hmem name hname⟩

theorem Closed.isSome_front (hclosed : tree.Closed) {front rest : Place}
    (hthere : (tree.entry? (front ++ rest)).isSome) : (tree.entry? front).isSome := by
  induction rest using List.reverseRecOn with
  | nil => simpa using hthere
  | append_singleton rest name ih =>
    rw [← List.append_assoc] at hthere
    refine ih ?_
    rw [hclosed.directory hthere]
    rfl

/-- Only directories lead on. -/
theorem Closed.directory_front (hclosed : tree.Closed) {front rest : Place} (hrest : rest ≠ [])
    (hthere : (tree.entry? (front ++ rest)).isSome) : tree.entry? front = some .directory := by
  obtain ⟨name, rest, rfl⟩ := List.exists_cons_of_ne_nil hrest
  rw [List.append_cons] at hthere
  exact hclosed.directory (hclosed.isSome_front hthere)

/-- No place of a tree has more names than the tree has entries: the places on the way to it are all
different. -/
theorem Closed.length_le (hclosed : tree.Closed) (hthere : (tree.entry? place).isSome) :
    place.length ≤ tree.entries.length := by
  -- Each name of the place leads to an entry of its own.
  let onWay := (List.range place.length).map fun count => place.take (count + 1)
  have hnodup : onWay.Nodup := by
    refine List.Nodup.map_on ?_ List.nodup_range
    intro count hcount count' hcount' heq
    have hlength := congrArg List.length heq
    simp only [List.mem_range, List.length_take] at hcount hcount' hlength
    omega
  have hsubset : onWay ⊆ tree.entries.map Prod.fst := by
    intro front hfront
    obtain ⟨count, hcount, rfl⟩ := List.mem_map.mp hfront
    have hne : place.take (count + 1) ≠ [] := by
      have hlength := List.mem_range.mp hcount
      intro hnil
      have hzero := congrArg List.length hnil
      simp only [List.length_take, List.length_nil] at hzero
      omega
    have hfront' : (tree.entry? (place.take (count + 1))).isSome := by
      rw [← List.take_append_drop (count + 1) place] at hthere
      exact hclosed.isSome_front hthere
    obtain ⟨entry, hentry⟩ := (isSome_entry?_iff hne).mp hfront'
    exact List.mem_map.mpr ⟨_, hentry, rfl⟩
  have hle := (List.subperm_of_subset hnodup hsubset).length_le
  simpa [onWay] using hle

/-! ### Where names lead -/

/-- The place to which one more name leads, if nothing is in the way. -/
def stepTo (place : Place) (name : Text) : Place :=
  if name = [] ∨ name = ['.'] then place
  else if name = ['.', '.'] then place.dropLast
  else place ++ [name]

/-- The place to which names lead, if nothing is in the way. -/
def walk (place : Place) (names : List Text) : Place := names.foldl stepTo place

/-- The place to which a path leads, if nothing is in the way. -/
def placeOf (tree : Tree) (path : Text) : Place := walk (tree.startOf path) (Text.pieces '/' path)

@[simp] theorem walk_nil (place : Place) : walk place [] = place := rfl

theorem walk_append (place : Place) (front rest : List Text) :
    walk place (front ++ rest) = walk (walk place front) rest := List.foldl_append

theorem walk_concat (place : Place) (names : List Text) (name : Text) :
    walk place (names ++ [name]) = stepTo (walk place names) name := walk_append place names [name]

theorem stepTo_name (h : IsName name) : stepTo place name = place ++ [name] := by
  simp [stepTo, h.ne_nil, h.ne_dot, h.ne_dots]

/-- Names of things lead straight down. -/
theorem walk_of_isName (h : ∀ name ∈ names, IsName name) : walk place names = place ++ names := by
  induction names generalizing place with
  | nil => exact (List.append_nil place).symm
  | cons name names ih =>
    obtain ⟨hname, hnames⟩ := List.forall_mem_cons.mp h
    show walk (stepTo place name) names = _
    rw [stepTo_name hname, ih hnames, List.append_assoc]
    rfl

/-- Names that stay make no difference. -/
theorem walk_filter (place : Place) (names : List Text) :
    walk place (names.filter fun name => name ≠ [] ∧ name ≠ ['.']) = walk place names := by
  induction names generalizing place with
  | nil => rfl
  | cons name names ih =>
    by_cases hstay : name = [] ∨ name = ['.']
    · have hstep : stepTo place name = place := if_pos hstay
      have hdrop : ¬ (name ≠ [] ∧ name ≠ ['.']) := by tauto
      rw [List.filter_cons_of_neg (by simpa using hdrop), ih]
      exact congrArg (names.foldl stepTo) hstep.symm
    · have hkeep : name ≠ [] ∧ name ≠ ['.'] := not_or.mp hstay
      rw [List.filter_cons_of_pos (by simpa using hkeep)]
      exact ih (stepTo place name)

theorem placeOf_eq_walk_names (tree : Tree) (path : Text) :
    tree.placeOf path = walk (tree.startOf path) (Path.names path) := (walk_filter _ _).symm

theorem stepTo_of_steps (h : Steps tree place name target) : target = stepTo place name := by
  cases h with
  | stay hstay => exact (if_pos hstay).symm
  | up hup =>
    subst hup
    rfl
  | down hproper hdots _ => simp [stepTo, hproper, hdots]

/-- Names lead to one place only. -/
theorem follow_eq_walk (h : tree.follow place names = .ok target) : target = walk place names := by
  induction names generalizing place with
  | nil =>
    cases h
    rfl
  | cons name names ih =>
    obtain ⟨-, next, hstep, hnext⟩ := follow_cons h
    rw [ih hnext, stepTo_of_steps hstep]
    rfl

theorem locate_eq_placeOf {path : Text} (h : tree.locate path = .ok place) :
    place = tree.placeOf path := by
  unfold locate at h
  split at h
  · cases h
  · exact follow_eq_walk h

/-- What names lead to is there. -/
theorem follow_isSome (hplace : (tree.entry? place).isSome)
    (hclosed : tree.Closed) (h : tree.follow place names = .ok target) :
    (tree.entry? target).isSome := by
  induction names generalizing place with
  | nil =>
    cases h
    exact hplace
  | cons name names ih =>
    obtain ⟨hdirectory, next, hstep, hnext⟩ := follow_cons h
    refine ih ?_ hnext
    cases hstep with
    | stay => exact hplace
    | up =>
      rw [hclosed.above hdirectory]
      rfl
    | down _ _ hthere => exact hthere

theorem Closed.startOf (h : tree.Closed) (path : Text) :
    tree.entry? (tree.startOf path) = some .directory := by
  unfold Tree.startOf
  split
  · rfl
  · exact h.here

theorem locate_isSome {path : Text} (hclosed : tree.Closed) (h : tree.locate path = .ok place) :
    (tree.entry? place).isSome := by
  unfold locate at h
  split at h
  · cases h
  · refine follow_isSome ?_ hclosed h
    rw [hclosed.startOf]
    rfl

/-! ### Resolved paths -/

/-- Double dots can be resolved before names are followed. -/
theorem reverse_foldl_push {stack : List Text} (hstack : ∀ name ∈ stack, name ≠ ['.', '.'])
    (h : ∀ name ∈ names, Path.IsStep name) :
    (names.foldl (Path.push true) stack).reverse = walk stack.reverse names := by
  induction names generalizing stack with
  | nil => rfl
  | cons name names ih =>
    obtain ⟨hname, hnames⟩ := List.forall_mem_cons.mp h
    have hstep : (Path.push true stack name).reverse = stepTo stack.reverse name := by
      by_cases hdots : name = ['.', '.']
      · subst hdots
        cases stack with
        | nil => rfl
        | cons top rest =>
          have htop := hstack top List.mem_cons_self
          simp [Path.push, stepTo, htop]
      · simp [Path.push, stepTo, hdots, hname.ne_nil, hname.ne_dot]
    -- Below a root, double dots take a name off the stack and never stay on it.
    have hpushed : ∀ other ∈ Path.push true stack name, other ≠ ['.', '.'] := by
      intro other hother
      unfold Path.push at hother
      split at hother
      · split at hother
        · cases hother
        · split at hother
          · rename_i top rest htop
            exact absurd htop (hstack top List.mem_cons_self)
          · exact hstack other (List.mem_cons_of_mem _ hother)
      · rename_i hdots
        rcases List.mem_cons.mp hother with rfl | hother
        · exact hdots
        · exact hstack other hother
    rw [List.foldl_cons, ih hpushed hnames, hstep]
    rfl

/-- The names of a path that is resolved from the working directory lead to its place. -/
theorem normalNames_join (h : Path.isAbsolute tree.cwd = true) (path : Text) :
    Path.normalNames (Path.join tree.cwd path) = tree.placeOf path := by
  have hsteps (path : Text) : ∀ name ∈ Path.names path, Path.IsStep name :=
    fun _ => Path.isStep_of_mem_names
  rw [Path.normalNames, Path.isAbsolute_join h, placeOf_eq_walk_names, startOf]
  cases habsolute : Path.isAbsolute path with
  | true =>
    rw [Path.join, if_pos habsolute, if_pos rfl]
    exact reverse_foldl_push (by simp) (hsteps path)
  | false =>
    rw [Path.names_join habsolute, List.foldl_append, if_neg (by simp)]
    have hhere : ((Path.names tree.cwd).foldl (Path.push true) []).reverse = tree.here := by
      rw [here, Path.normalNames, h]
    have hnames : ∀ name ∈ (Path.names tree.cwd).foldl (Path.push true) [], name ≠ ['.', '.'] :=
      fun name hname => (Path.isName_foldl_push (hsteps tree.cwd) (by simp) name hname).ne_dots
    rw [reverse_foldl_push hnames (hsteps path), hhere]

theorem isName_of_mem_placeOf (h : Path.isAbsolute tree.cwd = true) (path : Text) :
    ∀ name ∈ tree.placeOf path, IsName name := by
  rw [← normalNames_join h]
  exact fun _ => Path.isName_of_mem_normalNames (Path.isAbsolute_join h path)

/-- An absolute path is made of its root and the names of its place. -/
theorem absolute_eq_rooted (h : Path.isAbsolute tree.cwd = true) (path : Text) :
    Path.absolute tree.cwd path =
      Path.rooted (Path.root (Path.join tree.cwd path)) (tree.placeOf path) := by
  rw [Path.absolute, Path.normalize_of_isAbsolute (Path.isAbsolute_join h path), normalNames_join h]

/-- What a resolved path leads to. -/
theorem locate_resolve (hclosed : tree.Closed) (path : Text)
    (hthere : (tree.entry? (tree.placeOf path)).isSome) :
    tree.locate (Path.resolve tree.cwd path) = .ok (tree.placeOf path) := by
  have hnames := normalNames_join hclosed.absolute path
  have hdown := isName_of_mem_placeOf hclosed.absolute path
  have hresolve : Path.resolve tree.cwd path = Path.rooted ['/'] (tree.placeOf path) := by
    rw [Path.resolve, hnames]
    rfl
  rw [hresolve]
  exact (locate_rooted_iff hclosed.toProper (.inl rfl) hdown).mpr
    ⟨rfl, hclosed.isOpen hthere, hthere⟩

/-! ### Paths without double dots -/

/-- Does the name stay in its directory? -/
def Stays (name : Text) : Prop := name = [] ∨ name = ['.']

theorem follow_stays_iff (h : Stays name) :
    tree.follow place [name] = .ok target ↔ target = place ∧ tree.entry? target =
      some .directory := by
  constructor
  · intro hfollow
    obtain ⟨hplace, next, hstep, hnext⟩ := follow_cons hfollow
    cases hnext
    have hstay : stepTo place name = place := if_pos h
    have htarget := (stepTo_of_steps hstep).trans hstay
    subst htarget
    exact ⟨rfl, hplace⟩
  · intro ⟨htarget, hdirectory⟩
    subst htarget
    rcases h with rfl | rfl <;> simp [follow, hdirectory]

/-- Without double dots, names lead to their place if something stands there; to stay, it has to be
a directory. -/
theorem follow_straight_iff (hclosed : tree.Closed) (hplace : tree.entry? place = some .directory)
    (hstraight : ['.', '.'] ∉ names) :
    tree.follow place names = .ok target ↔
      target = walk place names ∧ (tree.entry? target).isSome ∧
        ∀ last ∈ names.getLast?, Stays last → tree.entry? target = some .directory := by
  induction names using List.reverseRecOn generalizing target with
  | nil =>
    constructor
    · intro h
      cases h
      refine ⟨rfl, ?_, by simp⟩
      rw [hplace]
      rfl
    · rintro ⟨rfl, -, -⟩
      rfl
  | append_singleton names name ih =>
    simp only [List.mem_append, List.mem_singleton, not_or] at hstraight
    have hlast : (names ++ [name]).getLast? = some name := List.getLast?_concat
    rw [follow_append, bind_eq_ok_iff, walk_concat, hlast]
    by_cases hstays : Stays name
    · have hstep : stepTo (walk place names) name = walk place names := if_pos hstays
      rw [hstep]
      constructor
      · rintro ⟨next, hnext, hname⟩
        obtain ⟨rfl, hdirectory⟩ := (follow_stays_iff hstays).mp hname
        obtain ⟨htarget, hthere, -⟩ := (ih hstraight.1).mp hnext
        exact ⟨htarget, hthere, fun _ _ _ => hdirectory⟩
      · rintro ⟨htarget, hthere, hinside⟩
        have hdirectory := hinside name rfl hstays
        exact ⟨target, (ih hstraight.1).mpr ⟨htarget, hthere, fun _ _ _ => hdirectory⟩,
          (follow_stays_iff hstays).mpr ⟨rfl, hdirectory⟩⟩
    · have hproper : name ≠ [] ∧ name ≠ ['.'] := not_or.mp hstays
      have hdots : name ≠ ['.', '.'] := Ne.symm hstraight.2
      have hstep : stepTo (walk place names) name = walk place names ++ [name] := by
        simp [stepTo, hproper, hdots]
      rw [hstep]
      constructor
      · rintro ⟨next, hnext, hname⟩
        obtain ⟨rfl, -, hthere⟩ := (follow_down_iff hproper hdots).mp hname
        obtain ⟨rfl, -, -⟩ := (ih hstraight.1).mp hnext
        refine ⟨rfl, hthere, fun last hmem hlast => ?_⟩
        cases hmem
        exact absurd hlast hstays
      · rintro ⟨rfl, hthere, -⟩
        have hdirectory := hclosed.directory hthere
        refine ⟨walk place names, (ih hstraight.1).mpr ⟨rfl, ?_, fun _ _ _ => hdirectory⟩,
          (follow_down_iff hproper hdots).mpr ⟨rfl, hdirectory, hthere⟩⟩
        rw [hdirectory]
        rfl

end Tree

/-- The path has no double dots among its names. -/
def Path.Straight (path : Text) : Prop := ['.', '.'] ∉ Text.pieces '/' path

instance (path : Text) : Decidable (Path.Straight path) :=
  inferInstanceAs (Decidable (_ ∉ _))

namespace Tree

variable {tree : Tree} {path : Text} {place : Place} {entry : Entry}

/-- Does the path end with a slash, or with a single dot as its last name? -/
def EndsInside (path : Text) : Prop := ∀ last ∈ (Text.pieces '/' path).getLast?, Stays last

theorem locate_straight_iff (hclosed : tree.Closed) (hstraight : Path.Straight path) :
    tree.locate path = .ok place ↔
      path ≠ [] ∧ '\x00' ∉ path ∧ place = tree.placeOf path ∧ (tree.entry? place).isSome ∧
        (EndsInside path → tree.entry? place = some .directory) := by
  obtain ⟨last, hlast⟩ : ∃ last, (Text.pieces '/' path).getLast? = some last :=
    Option.isSome_iff_exists.mp (List.getLast?_isSome.mpr (Text.pieces_ne_nil '/' path))
  have hinside : EndsInside path ↔ Stays last := by simp [EndsInside, hlast]
  have hfollow : tree.follow (tree.startOf path) (Text.pieces '/' path) = .ok place ↔
      place = tree.placeOf path ∧ (tree.entry? place).isSome ∧
        ∀ name ∈ (Text.pieces '/' path).getLast?, Stays name →
        tree.entry? place = some .directory :=
    follow_straight_iff hclosed (hclosed.startOf path) hstraight
  simp only [hlast, Option.mem_def, Option.some.injEq, forall_eq'] at hfollow
  rw [locate, hinside]
  by_cases hbad : path = [] ∨ '\x00' ∈ path
  · -- The empty path leads nowhere, nor does one with a null.
    have hempty : path.isEmpty ∨ '\x00' ∈ path := hbad.imp_left List.isEmpty_iff.mpr
    rw [if_pos hempty]
    constructor
    · intro h
      cases h
    · intro h
      obtain ⟨hne, hnull, _⟩ := h
      exact absurd hbad (not_or.mpr ⟨hne, hnull⟩)
  · have hempty : ¬ (path.isEmpty ∨ '\x00' ∈ path) := fun h => hbad (h.imp_left List.isEmpty_iff.mp)
    rw [if_neg hempty, hfollow]
    have hfit := not_or.mp hbad
    tauto

/-- What a path without double dots finds. -/
theorem find?_straight_iff (hclosed : tree.Closed) (hstraight : Path.Straight path) :
    tree.find? path = some entry ↔
      path ≠ [] ∧ '\x00' ∉ path ∧ tree.entry? (tree.placeOf path) = some entry ∧
        (EndsInside path → entry = .directory) := by
  unfold find?
  constructor
  · intro h
    split at h
    · rename_i place hlocate
      obtain ⟨hne, hnull, rfl, -, hinside⟩ := (locate_straight_iff hclosed hstraight).mp hlocate
      exact ⟨hne, hnull, h, fun hends => Option.some.inj (h.symm.trans (hinside hends))⟩
    · cases h
  · intro ⟨hne, hnull, hentry, hinside⟩
    have hlocate : tree.locate path = .ok (tree.placeOf path) := by
      refine (locate_straight_iff hclosed hstraight).mpr ⟨hne, hnull, rfl, ?_, fun hends => ?_⟩
      · rw [hentry]
        rfl
      · rw [hentry, hinside hends]
    rw [hlocate]
    exact hentry

/-! ### Growing trees -/

/-- The other tree has the directories and the files of the first one, and perhaps more. The bytes
of files may differ. -/
structure Grows (tree other : Tree) : Prop where
  cwd : other.cwd = tree.cwd
  directory : ∀ place, tree.entry? place = some .directory → other.entry? place = some .directory
  file : ∀ place bytes, tree.entry? place = some (.file bytes) →
    ∃ bytes', other.entry? place = some (.file bytes')

variable {other third : Tree}

theorem Grows.refl (tree : Tree) : tree.Grows tree :=
  ⟨rfl, fun _ h => h, fun _ bytes h => ⟨bytes, h⟩⟩

theorem Grows.trans (h : tree.Grows other) (h' : other.Grows third) : tree.Grows third where
  cwd := h'.cwd.trans h.cwd
  directory place hplace := h'.directory place (h.directory place hplace)
  file place bytes hplace := by
    obtain ⟨bytes', hother⟩ := h.file place bytes hplace
    exact h'.file place bytes' hother

theorem Grows.isSome (h : tree.Grows other) (hthere : (tree.entry? place).isSome) :
    (other.entry? place).isSome := by
  obtain ⟨entry, hentry⟩ := Option.isSome_iff_exists.mp hthere
  cases entry with
  | directory =>
    rw [h.directory place hentry]
    rfl
  | file bytes =>
    obtain ⟨bytes', hother⟩ := h.file place bytes hentry
    rw [hother]
    rfl

/-- A directory of the larger tree is one of the smaller tree, if that has anything there. -/
theorem Grows.directory_of (h : tree.Grows other) (hthere : (tree.entry? place).isSome)
    (hother : other.entry? place = some .directory) : tree.entry? place = some .directory := by
  obtain ⟨entry, hentry⟩ := Option.isSome_iff_exists.mp hthere
  cases entry with
  | directory => exact hentry
  | file bytes =>
    obtain ⟨bytes', hfile⟩ := h.file place bytes hentry
    rw [hother] at hfile
    cases hfile

theorem Grows.follow (h : tree.Grows other) {names : List Text} {target : Place}
    (hfollow : tree.follow place names = .ok target) : other.follow place names = .ok target := by
  induction names generalizing place with
  | nil => exact hfollow
  | cons name names ih =>
    obtain ⟨hdirectory, next, hstep, hnext⟩ := follow_cons hfollow
    have hrest := ih hnext
    have hother := h.directory place hdirectory
    cases hstep with
    | stay hstay => simpa [Tree.follow, hother, hstay] using hrest
    | up hup =>
      subst hup
      simpa [Tree.follow, hother] using hrest
    | down hproper hdots hthere =>
      have hthere' := Option.isSome_iff_ne_none.mp (h.isSome hthere)
      simpa [Tree.follow, hother, hproper, hdots, hthere'] using hrest

theorem startOf_of_cwd (h : other.cwd = tree.cwd) (path : Text) :
    other.startOf path = tree.startOf path := by
  rw [Tree.startOf, Tree.startOf, here, here, h]

theorem placeOf_of_cwd (h : other.cwd = tree.cwd) (path : Text) :
    other.placeOf path = tree.placeOf path := by
  rw [Tree.placeOf, Tree.placeOf, startOf_of_cwd h]

theorem Grows.locate (h : tree.Grows other) (hlocate : tree.locate path = .ok place) :
    other.locate path = .ok place := by
  unfold Tree.locate at hlocate ⊢
  split at hlocate
  · cases hlocate
  · rename_i hproper
    rw [if_neg hproper, startOf_of_cwd h.cwd]
    exact h.follow hlocate

theorem Grows.has (h : tree.Grows other) (hclosed : tree.Closed) (hhas : tree.has path = true) :
    other.has path = true := by
  unfold Tree.has Tree.find? at hhas ⊢
  split at hhas
  · rename_i place hlocate
    rw [h.locate hlocate]
    exact h.isSome (locate_isSome hclosed hlocate)
  · cases hhas

end Tree

end Splice
