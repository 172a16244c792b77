import Mathlib.Data.List.Induction
import Mathlib.Data.List.Nodup
import Splice.Proofs.Outcomes
import Splice.Proofs.Path.Names

/-!
# Places

Names that lead down from the root lead to the place with these names, provided that each of them
but the last is that of a directory.

* `Tree.Proper` — what is taken for granted of the entries of a tree;
* `Tree.Open` — the directories on the way to a place are there;
* `Tree.locate_rooted_iff`, `Tree.find?_rooted_iff` — where a path from the root leads; and
* `Tree.mem_children_iff`, `Tree.nodup_children` — the names in a directory.
-/

namespace Splice

open Splice.Path (IsName IsStep IsRoot rooted)

theorem Text.pieces_ofNames {names : List Text} (h : ∀ name ∈ names, IsStep name)
    (hne : names ≠ []) :
    pieces '/' (Path.ofNames names) = names := by
  induction names with
  | nil => exact absurd rfl hne
  | cons name names ih =>
    have hname := pieces_of_not_mem (h name List.mem_cons_self).no_slash
    by_cases hnames : names = []
    · subst hnames
      rw [Path.ofNames_singleton, hname]
    · rw [Path.ofNames_cons name hnames, pieces_append, hname,
        ih (fun other hother => h other (List.mem_cons_of_mem _ hother)) hnames]
      rfl

namespace Tree

/-- Entries have names as files and directories do, and each place has one entry. The working
directory is given from the root. -/
structure Proper (tree : Tree) : Prop where
  absolute : Path.isAbsolute tree.cwd = true
  isName : ∀ item ∈ tree.entries, ∀ name ∈ item.1, IsName name
  no_null : ∀ item ∈ tree.entries, ∀ name ∈ item.1, '\x00' ∉ name
  nodup : (tree.entries.map Prod.fst).Nodup

instance (tree : Tree) : Decidable tree.Proper :=
  decidable_of_iff
    (((Path.isAbsolute tree.cwd = true ∧ ∀ item ∈ tree.entries, ∀ name ∈ item.1, IsName name) ∧
      ∀ item ∈ tree.entries, ∀ name ∈ item.1, '\x00' ∉ name) ∧ (tree.entries.map Prod.fst).Nodup)
    ⟨fun h => ⟨h.1.1.1, h.1.1.2, h.1.2, h.2⟩,
      fun h => ⟨⟨⟨h.absolute, h.isName⟩, h.no_null⟩, h.nodup⟩⟩

/-- The directories on the way to a place are there. -/
def Open (tree : Tree) (place : Place) : Prop :=
  ∀ front name, front ++ [name] <+: place → tree.entry? front = some .directory

variable {tree : Tree} {place target down : Place} {name root : Text} {entry : Entry}

theorem open_nil (tree : Tree) : tree.Open [] := by
  intro front name h
  simp at h

theorem open_concat_iff :
    tree.Open (place ++ [name]) ↔ tree.Open place ∧ tree.entry? place = some .directory := by
  constructor
  · intro h
    refine ⟨fun front other hfront => h front other ?_, h place name (List.prefix_refl _)⟩
    exact hfront.trans (List.prefix_append _ _)
  · intro ⟨hopen, hplace⟩ front other hfront
    rcases List.prefix_concat_iff.mp hfront with heq | hfront
    · rw [(List.append_inj' heq rfl).1]
      exact hplace
    · exact hopen front other hfront

/-! ### Following names -/

theorem follow_append (tree : Tree) (place : Place) (front rest : List Text) :
    tree.follow place (front ++ rest) =
      (tree.follow place front).bind fun next => tree.follow next rest := by
  induction front generalizing place with
  | nil => rfl
  | cons name front ih =>
    rw [List.cons_append, follow, follow]
    split
    · rfl
    · rfl
    · split
      · exact ih place
      · split
        · exact ih place.dropLast
        · split
          · rfl
          · exact ih _

theorem follow_down_iff (hproper : name ≠ [] ∧ name ≠ ['.']) (hdots : name ≠ ['.', '.']) :
    tree.follow place [name] = .ok target ↔
      target = place ++ [name] ∧ tree.entry? place = some .directory ∧
        (tree.entry? target).isSome := by
  constructor
  · intro hfollow
    obtain ⟨hplace, next, hstep, hnext⟩ := follow_cons hfollow
    cases hnext
    cases hstep with
    | stay hstay => exact absurd hproper (not_and_or.mpr (hstay.imp not_not.mpr not_not.mpr))
    | up hup => exact absurd hup hdots
    | down _ _ hthere => exact ⟨rfl, hplace, hthere⟩
  · intro ⟨htarget, hplace, hthere⟩
    subst htarget
    simp [follow, hplace, hproper, hdots, Option.isSome_iff_ne_none.mp hthere]

theorem follow_name_iff (h : IsName name) :
    tree.follow place [name] = .ok target ↔
      target = place ++ [name] ∧ tree.entry? place = some .directory ∧
        (tree.entry? target).isSome :=
  follow_down_iff ⟨h.ne_nil, h.ne_dot⟩ h.ne_dots

/-- Names lead to the place with these names, and nowhere else. -/
theorem follow_names_iff (h : ∀ name ∈ down, IsName name) :
    tree.follow [] down = .ok place ↔
      place = down ∧ tree.Open down ∧ (tree.entry? down).isSome := by
  induction down using List.reverseRecOn generalizing place with
  | nil =>
    have hroot : (tree.entry? []).isSome := rfl
    simp [follow, open_nil, hroot, eq_comm]
  | append_singleton down name ih =>
    have hfront (next : Place) : tree.follow [] down = .ok next ↔
        next = down ∧ tree.Open down ∧ (tree.entry? down).isSome :=
      ih fun other hother => h other (List.mem_append_left _ hother)
    have hname := h name (by simp)
    rw [follow_append, open_concat_iff]
    constructor
    · intro hfollow
      obtain ⟨next, hnext, hlast⟩ := bind_eq_ok_iff.mp hfollow
      obtain ⟨rfl, hopen, -⟩ := (hfront next).mp hnext
      obtain ⟨rfl, hdirectory, hthere⟩ := (follow_name_iff hname).mp hlast
      exact ⟨rfl, ⟨hopen, hdirectory⟩, hthere⟩
    · intro h
      obtain ⟨hplace, ⟨hopen, hdirectory⟩, hthere⟩ := h
      have hnext : tree.follow [] down = .ok down :=
        (hfront down).mpr ⟨rfl, hopen, by rw [hdirectory]; rfl⟩
      subst hplace
      rw [hnext]
      exact (follow_name_iff hname).mpr ⟨rfl, hdirectory, hthere⟩

/-- At the root, the slashes with which a path begins lead nowhere else. -/
theorem follow_rooted (hroot : IsRoot root) (h : ∀ name ∈ down, IsStep name) :
    tree.follow [] (Text.pieces '/' (rooted root down)) = tree.follow [] down := by
  have hslash : ∀ text, tree.follow [] (Text.pieces '/' ('/' :: text)) =
      tree.follow [] (Text.pieces '/' text) := fun text => rfl
  have hpieces : tree.follow [] (Text.pieces '/' (Path.ofNames down)) = tree.follow [] down := by
    by_cases hdown : down = []
    · subst hdown
      rfl
    · rw [Text.pieces_ofNames h hdown]
  rcases hroot with rfl | rfl
  · exact (hslash _).trans hpieces
  · exact (hslash _).trans ((hslash _).trans hpieces)

/-! ### Entries -/

theorem mem_entries (hplace : place ≠ []) (h : tree.entry? place = some entry) :
    (place, entry) ∈ tree.entries := by
  unfold Tree.entry? at h
  rw [if_neg hplace] at h
  obtain ⟨before, after, hentries, -⟩ := List.lookup_eq_some_iff.mp h
  rw [hentries]
  exact List.mem_append_right _ List.mem_cons_self

theorem isSome_entry?_iff (hplace : place ≠ []) :
    (tree.entry? place).isSome ↔ ∃ entry, (place, entry) ∈ tree.entries := by
  constructor
  · intro h
    obtain ⟨entry, hentry⟩ := Option.isSome_iff_exists.mp h
    exact ⟨entry, mem_entries hplace hentry⟩
  · intro ⟨entry, hmem⟩
    unfold Tree.entry?
    rw [if_neg hplace, Option.isSome_iff_ne_none, Ne, List.lookup_eq_none_iff]
    intro hnone
    exact absurd (hnone _ hmem) (by simp)

/-! ### The names in a directory -/

theorem childName?_eq_some_iff {directory : Place} :
    childName? directory place = some name ↔ place = directory ++ [name] := by
  rcases place.eq_nil_or_concat' with rfl | ⟨front, last, rfl⟩
  · simp [childName?]
  · simp only [childName?, List.getLast?_concat, List.dropLast_concat]
    constructor
    · intro h
      split at h
      · rename_i hfront
        rw [hfront, Option.some.inj h]
      · cases h
    · intro h
      obtain ⟨hfront, hlast⟩ := List.append_inj' h rfl
      rw [if_pos hfront, (List.cons.inj hlast).1]

theorem mem_children_iff :
    name ∈ tree.children place ↔ (tree.entry? (place ++ [name])).isSome := by
  rw [isSome_entry?_iff (by simp), children, List.mem_filterMap]
  constructor
  · intro ⟨⟨other, entry⟩, hmem, hname⟩
    rw [childName?_eq_some_iff.mp hname] at hmem
    exact ⟨entry, hmem⟩
  · intro ⟨entry, hmem⟩
    exact ⟨_, hmem, childName?_eq_some_iff.mpr rfl⟩

theorem nodup_children (h : (tree.entries.map Prod.fst).Nodup) (place : Place) :
    (tree.children place).Nodup := by
  have hchildren :
      tree.children place = (tree.entries.map Prod.fst).filterMap (childName? place) := by
    rw [List.filterMap_map]
    rfl
  rw [hchildren]
  refine List.Nodup.filterMap ?_ h
  intro one other name hone hother
  rw [childName?_eq_some_iff.mp hone, childName?_eq_some_iff.mp hother]

/-! ### Places to which paths lead -/

variable (hproper : tree.Proper)
include hproper

/-- No null character is on the way to anything. -/
theorem Proper.null_not_mem_rooted (hroot : IsRoot root) (h : (tree.entry? down).isSome) :
    '\x00' ∉ rooted root down := by
  have hslashes : '\x00' ∉ root := by
    rcases hroot with rfl | rfl <;> decide
  rw [rooted, List.mem_append, not_or]
  refine ⟨hslashes, fun hnull => ?_⟩
  by_cases hdown : down = []
  · subst hdown
    simp [Path.ofNames] at hnull
  · obtain ⟨entry, hentry⟩ := Option.isSome_iff_exists.mp h
    obtain ⟨name, hname, hnull⟩ := (Path.mem_ofNames_iff (by decide)).mp hnull
    exact hproper.no_null _ (mem_entries hdown hentry) name hname hnull

theorem locate_rooted_iff (hroot : IsRoot root) (h : ∀ name ∈ down, IsName name) :
    tree.locate (rooted root down) = .ok place ↔
      place = down ∧ tree.Open down ∧ (tree.entry? down).isSome := by
  have habsolute : Path.isAbsolute (rooted root down) = true := Path.isAbsolute_root_append hroot _
  have hempty : (rooted root down).isEmpty = false := by
    rcases hroot with rfl | rfl <;> rfl
  have hnames : tree.follow [] down = .ok place ↔
      place = down ∧ tree.Open down ∧ (tree.entry? down).isSome := follow_names_iff h
  rw [locate, startOf, if_pos habsolute, follow_rooted hroot
    fun name hname => (h name hname).toIsStep, hempty]
  constructor
  · intro hlocate
    split at hlocate
    · cases hlocate
    · exact hnames.mp hlocate
  · intro hplace
    have hnull := hproper.null_not_mem_rooted hroot hplace.2.2
    rw [if_neg (by simp [hnull])]
    exact hnames.mpr hplace

theorem find?_rooted_iff (hroot : IsRoot root) (h : ∀ name ∈ down, IsName name) :
    tree.find? (rooted root down) = some entry ↔
      tree.Open down ∧ tree.entry? down = some entry := by
  unfold find?
  constructor
  · intro hfind
    split at hfind
    · rename_i place hlocate
      obtain ⟨rfl, hopen, -⟩ := (locate_rooted_iff hproper hroot h).mp hlocate
      exact ⟨hopen, hfind⟩
    · cases hfind
  · intro ⟨hopen, hentry⟩
    have hlocate : tree.locate (rooted root down) = .ok down :=
      (locate_rooted_iff hproper hroot h).mpr ⟨rfl, hopen, by rw [hentry]; rfl⟩
    rw [hlocate]
    exact hentry

end Tree

end Splice
