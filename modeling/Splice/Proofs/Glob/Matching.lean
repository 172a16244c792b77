import Mathlib.Data.List.Forall2
import Splice.Proofs.Glob.Finding
import Splice.Proofs.Tree.Places

/-!
# What a pattern finds

A pattern from the root finds paths from the root. Unless one of its names stands for any way down,
these are the paths whose names fit those of the pattern, one by one, and none is found twice.

* `Glob.fits`, `Glob.FitsAll` — does a name fit a name of a pattern?
* `Glob.search_sound`, `Glob.search_complete`, `Glob.nodup_search` — what is found; and
* `Glob.mem_expandFiles_iff`, `Glob.nodup_expandFiles` — the files among it.
-/

namespace Splice.Glob

open Splice.Path (IsName IsRoot rooted)
open Wildcard (isPattern)

/-! ### Fitting names -/

/-- Does the name fit a name of a pattern? Without wildcards this stands for itself only. -/
def fits (pattern name : Text) : Bool :=
  if isPattern pattern then
    (isHidden pattern || !isHidden name) && (Wildcard.ofText pattern).fits name
  else decide (pattern = name)

/-- The names fit those of a pattern, one by one. -/
def FitsAll (patterns names : List Text) : Prop :=
  List.Forall₂ (fun pattern name => fits pattern name = true) patterns names

instance (patterns names : List Text) : Decidable (FitsAll patterns names) :=
  inferInstanceAs (Decidable (List.Forall₂ _ patterns names))

variable {patterns names down ways : List Text} {pattern name text root file way : Text}

theorem fits_iff_eq (h : isPattern pattern = false) :
    fits pattern name = true ↔ pattern = name := by
  simp [fits, h]

/-- Lists that correspond have last members that do, and the rest of them does. -/
theorem forall₂_concat_iff {α β : Type} {R : α → β → Prop} {l : List α} {l' : List β}
    {a : α} {b : β} :
    List.Forall₂ R (l ++ [a]) (l' ++ [b]) ↔ List.Forall₂ R l l' ∧ R a b := by
  rw [← List.forall₂_reverse_iff, List.reverse_append, List.reverse_append, List.reverse_singleton,
    List.reverse_singleton, List.singleton_append, List.singleton_append, List.forall₂_cons,
    List.forall₂_reverse_iff, and_comm]

theorem fitsAll_concat_iff :
    FitsAll (patterns ++ [pattern]) (names ++ [name]) ↔
      FitsAll patterns names ∧ fits pattern name = true := forall₂_concat_iff

theorem fitsAll_concat_left (h : FitsAll (patterns ++ [pattern]) names) :
    ∃ front last, names = front ++ [last] := by
  rcases names.eq_nil_or_concat' with rfl | ⟨front, last, rfl⟩
  · have hlength := List.Forall₂.length_eq h
    simp at hlength
  · exact ⟨front, last, rfl⟩

theorem fitsAll_iff_eq (h : patterns.any isPattern = false) :
    FitsAll patterns names ↔ patterns = names := by
  induction patterns generalizing names with
  | nil => rw [FitsAll, List.forall₂_nil_left_iff, eq_comm]
  | cons pattern patterns ih =>
    rw [List.any_cons, Bool.or_eq_false_iff] at h
    cases names with
    | nil => simp [FitsAll]
    | cons name names =>
      have hrest : FitsAll patterns names ↔ patterns = names := ih h.2
      rw [FitsAll, List.forall₂_cons, fits_iff_eq h.1, List.cons.injEq]
      exact and_congr_right fun _ => hrest

theorem isPattern_append (text rest : Text) :
    isPattern (text ++ rest) = (isPattern text || isPattern rest) :=
  List.any_append

theorem isPattern_rooted (hroot : IsRoot root) :
    isPattern (rooted root patterns) = patterns.any isPattern := by
  have hslashes : isPattern root = false := by
    rcases hroot with rfl | rfl <;> rfl
  rw [rooted, isPattern_append, hslashes, Bool.false_or]
  induction patterns with
  | nil => rfl
  | cons pattern patterns ih =>
    by_cases hnil : patterns = []
    · subst hnil
      simp [Path.ofNames_singleton]
    · rw [Path.ofNames_cons pattern hnil, List.append_cons, isPattern_append, isPattern_append, ih,
        List.any_cons]
      simp [isPattern]

/-! ### Ways down -/

/-- The text spells the path that leads from a root down some names, perhaps with a slash at its
end. -/
def Spells (root : Text) (down : List Text) (text : Text) : Prop :=
  text = rooted root down ∨ down ≠ [] ∧ text = rooted root down ++ ['/']

theorem join_name (hname : IsName name) (h : Path.isAbsolute text = false) :
    Path.join name text = name ++ '/' :: text := by
  have hempty : name.isEmpty = false := by simpa using hname.ne_nil
  have hlast : name.getLast? ≠ some '/' := fun hlast => hname.no_slash (List.mem_of_getLast? hlast)
  simp [Path.join, h, hempty, hlast]

theorem within_ofNames (hname : IsName name) (h : ∀ other ∈ names, IsName other) :
    within name (Path.ofNames names) = Path.ofNames (name :: names) := by
  have hempty : name.isEmpty = false := by simpa using hname.ne_nil
  have hsteps : ∀ other ∈ names, Path.IsStep other := fun other hother => (h other hother).toIsStep
  by_cases hnames : names = []
  · subst hnames
    simp [within, hempty, Path.ofNames]
  · have hne : (Path.ofNames names).isEmpty = false := by
      simpa using Path.ofNames_ne_nil hsteps hnames
    rw [within, hempty, hne, Path.ofNames_cons name hnames]
    exact join_name hname (Path.isAbsolute_ofNames hsteps)

/-- Names lead on from a path that is spelt. -/
theorem Spells.join (hroot : IsRoot root) (hdown : ∀ name ∈ down, IsName name)
    (hways : ∀ name ∈ ways, IsName name) (h : Spells root down text) :
    Spells root (down ++ ways) (Path.join text (Path.ofNames ways)) := by
  have hsteps : ∀ name ∈ ways, Path.IsStep name := fun name hname => (hways name hname).toIsStep
  have habsolute := Path.isAbsolute_ofNames hsteps
  rcases h with rfl | ⟨hne, rfl⟩
  · by_cases hnil : ways = []
    · subst hnil
      -- To join nothing to a directory leaves a slash at its end, unless it is the root.
      rw [Path.join_rooted hroot hdown habsolute, List.append_nil]
      by_cases hdown : down = []
      · rw [if_pos hdown, hdown]
        exact .inl rfl
      · rw [if_neg hdown]
        exact .inr ⟨hdown, rfl⟩
    · exact .inl (Path.join_rooted_ofNames hroot hdown hsteps hnil)
  · have hslash : Path.join (rooted root down ++ ['/']) (Path.ofNames ways) =
        rooted root down ++ '/' :: Path.ofNames ways := by
      simp [Path.join, habsolute]
    rw [hslash]
    by_cases hnil : ways = []
    · subst hnil
      rw [List.append_nil]
      exact .inr ⟨hne, rfl⟩
    · rw [rooted, List.append_assoc, ← Path.ofNames_append hne hnil]
      exact .inl rfl

/-! ### One name -/

variable {tree : Tree} {directory : Text} {place : Place} {directoriesOnly : Bool} {fuel : Nat}

theorem directoryPlace?_rooted_iff (hproper : tree.Proper) (hroot : IsRoot root)
    (hdown : ∀ name ∈ down, IsName name) :
    directoryPlace? tree (rooted root down) = some place ↔
      place = down ∧ tree.Open down ∧ tree.entry? down = some .directory := by
  have hempty : (rooted root down).isEmpty = false := by
    rcases hroot with rfl | rfl <;> rfl
  unfold directoryPlace?
  rw [listPath, hempty]
  simp only [Bool.false_eq_true, if_false]
  constructor
  · intro h
    split at h
    · rename_i other hlocate
      obtain ⟨rfl, hopen, -⟩ := (Tree.locate_rooted_iff hproper hroot hdown).mp hlocate
      split at h
      · rename_i hentry
        exact ⟨(Option.some.inj h).symm, hopen, hentry⟩
      · cases h
    · cases h
  · intro ⟨hplace, hopen, hentry⟩
    have hlocate : tree.locate (rooted root down) = .ok down :=
      (Tree.locate_rooted_iff hproper hroot hdown).mpr ⟨rfl, hopen, by rw [hentry]; rfl⟩
    rw [hlocate, hplace]
    exact if_pos hentry

theorem isName_of_mem_namesAt (hproper : tree.Proper)
    (h : name ∈ namesAt tree directoriesOnly place) : IsName name := by
  have hchild := Tree.mem_children_iff.mp (List.mem_filter.mp h).1
  obtain ⟨entry, hmem⟩ := (Tree.isSome_entry?_iff (by simp)).mp hchild
  exact hproper.isName _ hmem name (by simp)

theorem mem_namesMatching_iff (hpattern : isPattern pattern = true) :
    name ∈ namesMatching tree directoriesOnly directory pattern ↔
      ∃ place, directoryPlace? tree directory = some place ∧
        name ∈ namesAt tree directoriesOnly place ∧ fits pattern name = true := by
  unfold namesMatching
  split
  · rename_i hnone
    simp [hnone]
  · rename_i place hsome
    simp [hsome, fits, hpattern]

theorem entry?_of_mem_namesAt (h : name ∈ namesAt tree directoriesOnly place) :
    (tree.entry? (place ++ [name])).isSome :=
  Tree.mem_children_iff.mp (List.mem_filter.mp h).1

theorem mem_namesAt_of_entry? (hthere : (tree.entry? (place ++ [name])).isSome)
    (hdirectory : directoriesOnly = true → tree.entry? (place ++ [name]) = some .directory) :
    name ∈ namesAt tree directoriesOnly place := by
  refine List.mem_filter.mpr ⟨Tree.mem_children_iff.mpr hthere, ?_⟩
  cases directoriesOnly with
  | false => rfl
  | true => simp [hdirectory rfl]

/-- What is below a place stands there, and it is spelt by names. -/
theorem exists_entry_of_mem_below (hproper : tree.Proper)
    (h : way ∈ below tree directoriesOnly fuel place) :
    ∃ names, names ≠ [] ∧ (∀ name ∈ names, IsName name) ∧ way = Path.ofNames names ∧
      (tree.entry? (place ++ names)).isSome := by
  induction fuel generalizing place way with
  | zero => exact absurd h List.not_mem_nil
  | succ fuel ih =>
    obtain ⟨name, hname, hway⟩ := List.mem_flatMap.mp h
    have hmem := (List.mem_filter.mp hname).1
    have hproperName := isName_of_mem_namesAt hproper hmem
    rcases List.mem_cons.mp hway with rfl | hway
    · exact ⟨[way], List.cons_ne_nil _ _, by simpa using hproperName,
        (Path.ofNames_singleton way).symm, entry?_of_mem_namesAt hmem⟩
    · obtain ⟨rest, hrest, rfl⟩ := List.mem_map.mp hway
      obtain ⟨names, hne, hnames, rfl, hthere⟩ := ih hrest
      refine ⟨name :: names, List.cons_ne_nil _ _, ?_, within_ofNames hproperName hnames, ?_⟩
      · exact List.forall_mem_cons.mpr ⟨hproperName, hnames⟩
      · simpa using hthere

/-- What the last name of a pattern finds is spelt by names: by one that fits, unless it stands for
any way down. -/
theorem lastName_sound (hproper : tree.Proper) (hpattern : IsName pattern)
    (h : way ∈ lastName tree directoriesOnly directory pattern) :
    ∃ names, (∀ name ∈ names, IsName name) ∧ way = Path.ofNames names ∧
      (pattern ≠ anyWay → ∃ name, names = [name] ∧ fits pattern name = true) := by
  cases mem_lastName_iff.mp h with
  | here => exact ⟨[], by simp, rfl, fun hne => absurd rfl hne⟩
  | below hplace hway =>
    obtain ⟨names, -, hnames, hway, -⟩ := exists_entry_of_mem_below hproper hway
    exact ⟨names, hnames, hway, fun hne => absurd rfl hne⟩
  | matching hwild hany hway =>
    obtain ⟨place, -, hname, hfits⟩ := (mem_namesMatching_iff hwild).mp hway
    refine ⟨[way], ?_, (Path.ofNames_singleton way).symm, fun _ => ⟨way, rfl, hfits⟩⟩
    simpa using isName_of_mem_namesAt hproper hname
  | itself hplain hinside =>
    exact ⟨[pattern], by simpa using hpattern, (Path.ofNames_singleton pattern).symm,
      fun _ => ⟨pattern, rfl, (fits_iff_eq hplain).mpr rfl⟩⟩

/-! ### Whole patterns -/

theorem rooted_ne_nil (hroot : IsRoot root) (names : List Text) : rooted root names ≠ [] := by
  rcases hroot with rfl | rfl <;> simp [rooted]

theorem isName_front (h : ∀ other ∈ names ++ [name], IsName other) :
    ∀ other ∈ names, IsName other :=
  fun other hother => h other (List.mem_append_left _ hother)

theorem isName_last (h : ∀ other ∈ names ++ [name], IsName other) : IsName name :=
  h name (by simp)

/-- The directories in which the last name of a pattern is looked for. -/
def searchDirectories (tree : Tree) (fuel : Nat) (directory : Text) : List Text :=
  if isPattern directory then search tree [] fuel true directory else [directory]

theorem search_root (hroot : IsRoot root) (fuel : Nat) (directoriesOnly : Bool) :
    search tree [] (fuel + 1) directoriesOnly root = [root] := by
  have hplain : isPattern root = false := by
    rcases hroot with rfl | rfl <;> rfl
  have hleaf : Path.leaf root = [] := by
    rcases hroot with rfl | rfl <;> rfl
  have hthere : tree.isDirectory (within [] (Path.parent root)) = true := by
    rcases hroot with rfl | rfl <;> rfl
  have hfound : isFound tree [] root = true := by
    rw [isFound, hleaf]
    exact hthere
  rw [search_of_plain hplain, if_pos hfound]

/-- A pattern loses its last name in each round. -/
theorem search_concat (hroot : IsRoot root)
    (hpatterns : ∀ name ∈ patterns ++ [pattern], IsName name) (fuel : Nat)
    (directoriesOnly : Bool) :
    search tree [] (fuel + 1) directoriesOnly (rooted root (patterns ++ [pattern])) =
      if isPattern (rooted root (patterns ++ [pattern])) then
        (searchDirectories tree fuel (rooted root patterns)).flatMap fun directory =>
          (lastName tree directoriesOnly directory pattern).map (Path.join directory)
      else if tree.has (rooted root (patterns ++ [pattern])) then
        [rooted root (patterns ++ [pattern])]
      else [] := by
  have hpattern := isName_last hpatterns
  have hempty : pattern.isEmpty = false := by simpa using hpattern.ne_nil
  have hne : rooted root patterns ≠ rooted root (patterns ++ [pattern]) := by
    intro heq
    have hnames := ((Path.rooted_inj hroot hroot (isName_front hpatterns) hpatterns).mp heq).2
    simpa using congrArg List.length hnames
  have hleaf : Path.leaf (rooted root (patterns ++ [pattern])) = pattern :=
    Path.leaf_rooted hroot hpattern
  have hparent := Path.parent_rooted hroot (isName_front hpatterns) hpattern
  cases hwild : isPattern (rooted root (patterns ++ [pattern])) with
  | true =>
    rw [search_of_wild hwild, directoriesOf, hparent, hleaf, searchDirectories]
    simp [hne, within_nil]
  | false =>
    rw [search_of_plain hwild, isFound, hleaf, hempty]
    simp [within_nil]

/-- The text spells a path that leads from the root down some names. If no name of the pattern
stands for any way down, then these fit its names, one by one. -/
def Fitting (root : Text) (patterns : List Text) (text : Text) : Prop :=
  ∃ down, (∀ name ∈ down, IsName name) ∧ Spells root down text ∧
    (anyWay ∉ patterns → text = rooted root down ∧ FitsAll patterns down)

theorem fitting_self (hroot : IsRoot root) (hpatterns : ∀ name ∈ patterns, IsName name)
    (h : ¬ isPattern (rooted root patterns) = true) :
    Fitting root patterns (rooted root patterns) := by
  rw [isPattern_rooted hroot, Bool.not_eq_true] at h
  exact ⟨patterns, hpatterns, .inl rfl, fun _ => ⟨rfl, (fitsAll_iff_eq h).mpr rfl⟩⟩

theorem searchDirectories_sound (hroot : IsRoot root) (hpatterns : ∀ name ∈ patterns, IsName name)
    (hsearch : ∀ text ∈ search tree [] fuel true (rooted root patterns), Fitting root patterns text)
    (h : directory ∈ searchDirectories tree fuel (rooted root patterns)) :
    Fitting root patterns directory := by
  unfold searchDirectories at h
  split at h
  · exact hsearch directory h
  · rename_i hplain
    rw [List.mem_singleton.mp h]
    exact fitting_self hroot hpatterns hplain

/-- A pattern finds what fits it. -/
theorem search_sound (hproper : tree.Proper) (hroot : IsRoot root)
    (hpatterns : ∀ name ∈ patterns, IsName name)
    (h : text ∈ search tree [] fuel directoriesOnly (rooted root patterns)) :
    Fitting root patterns text := by
  induction fuel generalizing directoriesOnly patterns text with
  | zero => exact absurd h List.not_mem_nil
  | succ fuel ih =>
    rcases patterns.eq_nil_or_concat' with rfl | ⟨front, pattern, rfl⟩
    · rw [Path.rooted_nil, search_root hroot] at h
      have htext : text = rooted root [] :=
        (List.mem_singleton.mp h).trans (Path.rooted_nil root).symm
      exact ⟨[], by simp, .inl htext, fun _ => ⟨htext, List.Forall₂.nil⟩⟩
    · have hfront := isName_front hpatterns
      rw [search_concat hroot hpatterns] at h
      split at h
      · rename_i hwild
        obtain ⟨directory, hdirectory, htext⟩ := List.mem_flatMap.mp h
        obtain ⟨way, hway, rfl⟩ := List.mem_map.mp htext
        obtain ⟨down, hdown, hspells, hfits⟩ :=
          searchDirectories_sound hroot hfront (fun _ => ih hfront) hdirectory
        obtain ⟨ways, hways, rfl, hname⟩ := lastName_sound hproper (isName_last hpatterns) hway
        -- The names down to the directory, and those from there on.
        refine ⟨down ++ ways, ?_, hspells.join hroot hdown hways, ?_⟩
        · intro name hname
          exact (List.mem_append.mp hname).elim (hdown name) (hways name)
        · intro hany
          simp only [List.mem_append, List.mem_singleton, not_or] at hany
          obtain ⟨rfl, hfront⟩ := hfits hany.1
          obtain ⟨name, rfl, hlast⟩ := hname (Ne.symm hany.2)
          have hsteps : ∀ other ∈ [name], Path.IsStep other :=
            fun other hother => (hways other hother).toIsStep
          exact ⟨Path.join_rooted_ofNames hroot hdown hsteps (by simp),
            fitsAll_concat_iff.mpr ⟨hfront, hlast⟩⟩
      · rename_i hplain
        split at h
        · rw [List.mem_singleton.mp h]
          exact fitting_self hroot hpatterns hplain
        · exact absurd h List.not_mem_nil

theorem has_rooted (hproper : tree.Proper) (hroot : IsRoot root)
    (hdown : ∀ name ∈ down, IsName name) (hopen : tree.Open down)
    (hthere : (tree.entry? down).isSome) :
    tree.has (rooted root down) = true := by
  obtain ⟨entry, hentry⟩ := Option.isSome_iff_exists.mp hthere
  exact Option.isSome_iff_exists.mpr
    ⟨entry, (Tree.find?_rooted_iff hproper hroot hdown).mpr ⟨hopen, hentry⟩⟩

/-- A name that fits is found in its directory. -/
theorem mem_lastName (hproper : tree.Proper) (hroot : IsRoot root)
    (hdown : ∀ other ∈ down ++ [name], IsName other) (hany : pattern ≠ anyWay)
    (hfits : fits pattern name = true) (hopen : tree.Open (down ++ [name]))
    (hthere : (tree.entry? (down ++ [name])).isSome)
    (hdirectory : directoriesOnly = true → tree.entry? (down ++ [name]) = some .directory) :
    name ∈ lastName tree directoriesOnly (rooted root down) pattern := by
  have hfront := isName_front hdown
  have hname := isName_last hdown
  have hparent := Tree.open_concat_iff.mp hopen
  rw [mem_lastName_iff]
  cases hwild : isPattern pattern with
  | true =>
    have hplace := (directoryPlace?_rooted_iff hproper hroot hfront).mpr ⟨rfl, hparent⟩
    exact .matching hwild hany ((mem_namesMatching_iff hwild).mpr
      ⟨down, hplace, mem_namesAt_of_entry? hthere hdirectory, hfits⟩)
  | false =>
    -- A name without wildcards only fits itself.
    obtain rfl := (fits_iff_eq hwild).mp hfits
    have hempty : pattern.isEmpty = false := by simpa using hname.ne_nil
    have hwithin : within (rooted root down) pattern = rooted root (down ++ [pattern]) := by
      have hbase : (rooted root down).isEmpty = false := by simpa using rooted_ne_nil hroot down
      rw [within, hbase, hempty]
      exact Path.join_rooted_name hroot hfront hname
    refine .itself hwild ?_
    rw [isInside, hempty, hwithin]
    exact has_rooted hproper hroot hdown hopen hthere

/-- Names that fit those of a pattern, one by one, are found if they lead to something. -/
theorem search_complete (hproper : tree.Proper) (hroot : IsRoot root)
    (hpatterns : ∀ name ∈ patterns, IsName name) (hdown : ∀ name ∈ down, IsName name)
    (hany : anyWay ∉ patterns) (hfits : FitsAll patterns down) (hopen : tree.Open down)
    (hthere : (tree.entry? down).isSome)
    (hdirectory : directoriesOnly = true → tree.entry? down = some .directory)
    (hfuel : patterns.length < fuel) :
    rooted root down ∈ search tree [] fuel directoriesOnly (rooted root patterns) := by
  induction fuel generalizing directoriesOnly patterns down with
  | zero => omega
  | succ fuel ih =>
    -- The search goes from the last name to the first, so the names are split there.
    rcases patterns.eq_nil_or_concat' with rfl | ⟨front, pattern, rfl⟩
    · have hnil : down = [] := by simpa [FitsAll] using hfits
      subst hnil
      rw [Path.rooted_nil, search_root hroot]
      exact List.mem_singleton_self _
    · obtain ⟨above, name, rfl⟩ := fitsAll_concat_left hfits
      obtain ⟨hfront, hlast⟩ := fitsAll_concat_iff.mp hfits
      simp only [List.mem_append, List.mem_singleton, not_or] at hany
      have hparent := Tree.open_concat_iff.mp hopen
      rw [search_concat hroot hpatterns]
      split
      · -- The directory above is found, and in it the last name.
        refine List.mem_flatMap.mpr ⟨rooted root above, ?_, ?_⟩
        · unfold searchDirectories
          split
          · refine ih (isName_front hpatterns) (isName_front hdown) hany.1 hfront hparent.1 ?_
              (fun _ => hparent.2) ?_
            · rw [hparent.2]
              rfl
            · simpa using hfuel
          · rename_i hplain
            rw [isPattern_rooted hroot, Bool.not_eq_true] at hplain
            rw [(fitsAll_iff_eq hplain).mp hfront]
            exact List.mem_singleton_self _
        · have hmem :=
            mem_lastName hproper hroot hdown (Ne.symm hany.2) hlast hopen hthere hdirectory
          exact List.mem_map.mpr
            ⟨name, hmem, Path.join_rooted_name hroot (isName_front hdown) (isName_last hdown)⟩
      · rename_i hplain
        rw [isPattern_rooted hroot, Bool.not_eq_true] at hplain
        rw [(fitsAll_iff_eq hplain).mp hfits, if_pos (has_rooted hproper hroot hdown hopen hthere)]
        exact List.mem_singleton_self _

theorem nodup_lastName (hproper : tree.Proper) (hany : pattern ≠ anyWay) :
    (lastName tree directoriesOnly directory pattern).Nodup := by
  cases hwild : isPattern pattern with
  | true =>
    rw [lastName_of_wild hwild hany, namesMatching]
    split
    · exact List.nodup_nil
    · exact ((Tree.nodup_children hproper.nodup _).filter _).filter _
  | false =>
    rw [lastName_of_plain hwild]
    split <;> simp

/-- What is found in a directory has this directory as its parent. -/
theorem parent_leaf_of_mem_lastName (hproper : tree.Proper) (hroot : IsRoot root)
    (hpatterns : ∀ name ∈ patterns ++ [pattern], IsName name) (hany : anyWay ∉ patterns)
    (hlast : anyWay ≠ pattern)
    (hdirectory : directory ∈ searchDirectories tree fuel (rooted root patterns))
    (h : name ∈ lastName tree directoriesOnly directory pattern) :
    Path.parent (Path.join directory name) = directory ∧
      Path.leaf (Path.join directory name) = name := by
  have hfront := isName_front hpatterns
  obtain ⟨down, hdown, -, hfits⟩ := searchDirectories_sound hroot hfront
    (fun _ => search_sound hproper hroot hfront) hdirectory
  obtain ⟨ways, hways, hname, hsingle⟩ := lastName_sound hproper (isName_last hpatterns) h
  obtain ⟨other, rfl, -⟩ := hsingle (Ne.symm hlast)
  rw [Path.ofNames_singleton] at hname
  subst hname
  have hother : IsName name := by simpa using hways
  rw [(hfits hany).1, Path.join_rooted_name hroot hdown hother]
  exact ⟨Path.parent_rooted hroot hdown hother, Path.leaf_rooted hroot hother⟩

/-- Nothing is found twice. -/
theorem nodup_search (hproper : tree.Proper) (hroot : IsRoot root)
    (hpatterns : ∀ name ∈ patterns, IsName name) (hany : anyWay ∉ patterns) :
    (search tree [] fuel directoriesOnly (rooted root patterns)).Nodup := by
  induction fuel generalizing directoriesOnly patterns with
  | zero => exact List.nodup_nil
  | succ fuel ih =>
    rcases patterns.eq_nil_or_concat' with rfl | ⟨front, pattern, rfl⟩
    · rw [Path.rooted_nil, search_root hroot]
      exact List.nodup_singleton _
    · have hfront := isName_front hpatterns
      simp only [List.mem_append, List.mem_singleton, not_or] at hany
      rw [search_concat hroot hpatterns]
      split
      · have hdirectories : (searchDirectories tree fuel (rooted root front)).Nodup := by
          unfold searchDirectories
          split
          · exact ih hfront hany.1
          · exact List.nodup_singleton _
        -- A path that is found tells the directory and the name it was joined from.
        have hapart (directory : Text)
            (hdirectory : directory ∈ searchDirectories tree fuel (rooted root front)) (name : Text)
            (hname : name ∈ lastName tree directoriesOnly directory pattern) :
            Path.parent (Path.join directory name) = directory ∧
              Path.leaf (Path.join directory name) = name :=
          parent_leaf_of_mem_lastName hproper hroot hpatterns hany.1 hany.2 hdirectory hname
        rw [List.nodup_flatMap]
        refine ⟨fun directory hdirectory => ?_, ?_⟩
        · refine (nodup_lastName hproper (Ne.symm hany.2)).map_on ?_
          intro one hone other hother heq
          rw [← (hapart directory hdirectory one hone).2, heq,
            (hapart directory hdirectory other hother).2]
        · refine hdirectories.pairwise_of_forall_ne ?_
          intro one hone other hother hne path hpath hpath'
          obtain ⟨name, hname, rfl⟩ := List.mem_map.mp hpath
          obtain ⟨name', hname', heq⟩ := List.mem_map.mp hpath'
          refine hne ?_
          rw [← (hapart one hone name hname).1, ← heq, (hapart other hother name' hname').1]
      · split
        · exact List.nodup_singleton _
        · exact List.nodup_nil

/-! ### Files -/

theorem length_le_length_rooted (h : ∀ name ∈ names, IsName name) (root : Text) :
    names.length ≤ (rooted root names).length := by
  rw [rooted, List.length_append]
  refine Nat.le_add_left_of_le ?_
  induction names with
  | nil => exact Nat.zero_le _
  | cons name names ih =>
    have hname : 0 < name.length := List.length_pos_iff.mpr (h name List.mem_cons_self).ne_nil
    by_cases hnil : names = []
    · subst hnil
      rw [Path.ofNames_singleton]
      exact hname
    · rw [Path.ofNames_cons name hnil]
      have hrest := ih fun other hother => h other (List.mem_cons_of_mem _ hother)
      simp only [List.length_cons, List.length_append]
      omega

/-- A pattern from the root finds no empty path. -/
theorem find_rooted (hroot : IsRoot root) :
    find tree [] (rooted root patterns) =
      search tree [] ((rooted root patterns).length + 1) false (rooted root patterns) := by
  have hlead : Text.hasLead anyWay (rooted root patterns) = false := by
    rcases hroot with rfl | rfl <;> rfl
  unfold find
  simp only [rooted_ne_nil hroot patterns, hlead, List.isEmpty_iff]
  split <;> simp_all

theorem mem_expandFiles {path : Text} :
    file ∈ expandFiles tree none path ↔ file ∈ find tree [] path ∧ tree.isFile file = true := by
  simp [expandFiles, Text.sort, Path.join_nil]

/-- A file that a pattern finds has a name. -/
theorem exists_rooted_of_mem_expandFiles (hproper : tree.Proper) (hroot : IsRoot root)
    (hpatterns : ∀ name ∈ patterns, IsName name)
    (h : file ∈ expandFiles tree none (rooted root patterns)) :
    ∃ down name, (∀ other ∈ down ++ [name], IsName other) ∧ file = rooted root (down ++ [name]) ∧
      (anyWay ∉ patterns → FitsAll patterns (down ++ [name])) := by
  obtain ⟨hfound, hfile⟩ := mem_expandFiles.mp h
  rw [find_rooted hroot] at hfound
  obtain ⟨down, hdown, hspells, hfits⟩ := search_sound hproper hroot hpatterns hfound
  have hleaf := Tree.leaf_ne_nil_of_isFile hfile
  have heq : file = rooted root down := by
    rcases hspells with heq | ⟨-, heq⟩
    · exact heq
    · subst heq
      -- A path with a slash at its end is that of no file.
      have hslash : Path.leaf (rooted root down ++ ['/'] ++ []) = [] :=
        Path.leaf_append List.not_mem_nil (by simp)
      rw [List.append_nil] at hslash
      exact absurd hslash hleaf
  rcases down.eq_nil_or_concat' with rfl | ⟨front, name, rfl⟩
  · subst heq
    refine absurd ?_ hleaf
    rcases hroot with rfl | rfl <;> rfl
  · exact ⟨front, name, hdown, heq, fun hany => (hfits hany).2⟩

/-- The files that a pattern finds, if none of its names stands for any way down. -/
theorem mem_expandFiles_iff (hproper : tree.Proper) (hroot : IsRoot root)
    (hpatterns : ∀ name ∈ patterns, IsName name) (hany : anyWay ∉ patterns) :
    file ∈ expandFiles tree none (rooted root patterns) ↔
      tree.isFile file = true ∧
        ∃ down, (∀ name ∈ down, IsName name) ∧ file = rooted root down ∧ FitsAll patterns down := by
  rw [mem_expandFiles, find_rooted hroot]
  constructor
  · intro ⟨hfound, hfile⟩
    obtain ⟨down, hdown, -, hfits⟩ := search_sound hproper hroot hpatterns hfound
    exact ⟨hfile, down, hdown, hfits hany⟩
  · intro ⟨hfile, down, hdown, heq, hfits⟩
    refine ⟨?_, hfile⟩
    subst heq
    obtain ⟨place, bytes, hlocate, hentry⟩ := Tree.isFile_iff.mp hfile
    obtain ⟨rfl, hopen, hthere⟩ := (Tree.locate_rooted_iff hproper hroot hdown).mp hlocate
    refine search_complete hproper hroot hpatterns hdown hany hfits hopen hthere ?_ ?_
    · intro hfalse
      cases hfalse
    · exact Nat.lt_succ_of_le (length_le_length_rooted hpatterns root)

theorem nodup_expandFiles (hproper : tree.Proper) (hroot : IsRoot root)
    (hpatterns : ∀ name ∈ patterns, IsName name) (hany : anyWay ∉ patterns) :
    (expandFiles tree none (rooted root patterns)).Nodup := by
  unfold expandFiles Text.sort
  rw [(List.mergeSort_perm _ _).nodup_iff, Option.getD_none, find_rooted hroot]
  exact (nodup_search hproper hroot hpatterns hany).filter _

end Splice.Glob
