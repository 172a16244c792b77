import Mathlib.Data.Set.Card
import Splice.Proofs.Glob.Distinct

/-!
# How often a file is found

A pattern from the root finds a file as often as the names of the file can be divided among the
names of the pattern. A name that stands for any way down takes any number of names that are not
hidden, so that several of them share a way down in several ways: the file is found, and spliced,
once for each.

* `Glob.Takes`, `Glob.Divides` — the names that a name of a pattern takes, and how a path is
  divided;
* `Glob.exists_follows`, `Glob.count_expandFiles` — a search follows each division once; and
* `Glob.expand_increasing` — how often a file is found, and when no file is found twice.
-/

namespace Splice.Glob

open Splice.Path (IsName IsRoot rooted)
open Wildcard (isPattern)

/-- May a name of a pattern take these names? Any way down takes names that are not hidden, any
other name takes one that fits. -/
def Takes (pattern : Text) (part : List Text) : Prop :=
  if pattern = anyWay then ∀ name ∈ part, isHidden name = false
  else ∃ name, part = [name] ∧ fits pattern name = true

/-- The names of a file are divided among those of a pattern. The last name of the pattern takes at
least the last name of the file. -/
structure Divides (patterns names : List Text) (parts : List (List Text)) : Prop where
  takes : List.Forall₂ Takes patterns parts
  flatten : parts.flatten = names
  last : parts.getLast? ≠ some []

variable {tree : Tree} {root directory pattern : Text}
  {patterns names down part : List Text} {directoriesOnly : Bool} {fuel : Nat}

/-! ### Paths that are spelt -/

theorem isAbsolute_of_spells (hroot : IsRoot root) {text : Text} (h : Spells root down text) :
    Path.isAbsolute text = true := by
  rcases h with rfl | ⟨-, rfl⟩
  · exact Path.isAbsolute_root_append hroot _
  · rw [rooted, List.append_assoc]
    exact Path.isAbsolute_root_append hroot _

theorem names_of_spells (hroot : IsRoot root) (hdown : ∀ name ∈ down, IsName name) {text : Text}
    (h : Spells root down text) : Path.names text = down := by
  rcases h with rfl | ⟨-, rfl⟩
  · exact Path.names_rooted hroot hdown
  · rw [Path.names_append_slash, Path.names_rooted hroot hdown]
    exact List.append_nil down

/-- A directory that is spelt is found at its place. -/
theorem directoryPlace?_of_spells (hclosed : tree.Closed) (hroot : IsRoot root)
    (hdown : ∀ name ∈ down, IsName name) (h : Spells root down directory)
    (hentry : tree.entry? down = some .directory) : directoryPlace? tree directory = some down := by
  have hnames := names_of_spells hroot hdown h
  have hplace : tree.placeOf directory = down := by
    rw [Tree.placeOf_eq_walk_names, hnames, Tree.startOf, isAbsolute_of_spells hroot h, if_pos rfl,
      Tree.walk_of_isName hdown, List.nil_append]
  have hstraight : Path.Straight directory := by
    rw [Path.straight_iff, hnames]
    exact fun hmem => (hdown _ hmem).ne_dots rfl
  have hnull : '\x00' ∉ directory := by
    have hopen : tree.Open down := hclosed.isOpen (by rw [hentry]; rfl)
    have hfind := (Tree.find?_rooted_iff hclosed.toProper hroot hdown).mpr ⟨hopen, hentry⟩
    have hnull : '\x00' ∉ rooted root down := by
      intro hmem
      simp [Tree.find?, Tree.locate, hmem] at hfind
    rcases h with rfl | ⟨-, rfl⟩
    · exact hnull
    · simpa using hnull
  have hne : directory ≠ [] := by
    rintro rfl
    cases isAbsolute_of_spells hroot h
  have hlist : listPath directory = directory := by simp [listPath, hne]
  have hfind : tree.find? directory = some .directory :=
    (Tree.find?_straight_iff hclosed hstraight).mpr
      ⟨hne, hnull, by rw [hplace, hentry], fun _ => rfl⟩
  rw [directoryPlace?_eq, hlist, Tree.isDirectory, hfind, hplace]
  rfl

/-- One or more names lead on from a path that is spelt, without a slash at the end. -/
theorem Spells.join_eq (hroot : IsRoot root) (hdown : ∀ name ∈ down, IsName name)
    (hpart : ∀ name ∈ part, IsName name) (hne : part ≠ []) (h : Spells root down directory) :
    Path.join directory (Path.ofNames part) = rooted root (down ++ part) := by
  have hsteps : ∀ name ∈ part, Path.IsStep name := fun name hname => (hpart name hname).toIsStep
  rcases h with rfl | ⟨hnil, rfl⟩
  · exact Path.join_rooted_ofNames hroot hdown hsteps hne
  · have hjoin : Path.join (rooted root down ++ ['/']) (Path.ofNames part) =
        rooted root down ++ '/' :: Path.ofNames part := by
      simp [Path.join, Path.isAbsolute_ofNames hsteps]
    rw [hjoin, rooted, rooted, Path.ofNames_append hnil hne, List.append_assoc]

/-! ### One name -/

theorem takes_of_ne (hany : pattern ≠ anyWay) :
    Takes pattern part ↔ ∃ name, part = [name] ∧ fits pattern name = true := by
  rw [Takes, if_neg hany]

/-- What stands below a directory is found there if none of the names that lead to it is hidden. The
induction follows these names. -/
theorem mem_names_below_iff (hclosed : tree.Closed) (hthere : (tree.entry? (place ++ names)).isSome)
    (hdirectory : directoriesOnly = true → tree.entry? (place ++ names) = some .directory)
    (hfuel : names.length ≤ fuel) :
    names ∈ (below tree directoriesOnly fuel place).map Path.names ↔
      names ≠ [] ∧ ∀ name ∈ names, isHidden name = false := by
  induction names generalizing place fuel with
  | nil =>
    exact iff_of_false (nil_not_mem_names_below hclosed.toProper fuel place) fun h => h.1 rfl
  | cons name rest ih =>
    obtain ⟨fuel, rfl⟩ : ∃ more, fuel = more + 1 :=
      ⟨fuel - 1, by rw [List.length_cons] at hfuel; omega⟩
    rw [List.append_cons] at hthere hdirectory
    have hmem : name ∈ namesAt tree directoriesOnly place := by
      refine mem_namesAt_of_entry? (hclosed.isSome_front hthere) fun honly => ?_
      by_cases hnil : rest = []
      · simpa [hnil] using hdirectory honly
      · exact hclosed.directory_front hnil hthere
    -- The way ends with the first name, or goes on below it.
    have hrest : rest ∈ [] :: (below tree directoriesOnly fuel (place ++ [name])).map Path.names ↔
        ∀ other ∈ rest, isHidden other = false := by
      rw [List.mem_cons, ih hthere hdirectory (by simpa using hfuel)]
      by_cases hnil : rest = []
      · simp [hnil]
      · simp [hnil]
    rw [names_below_succ hclosed.toProper, List.mem_flatMap, List.forall_mem_cons, ← hrest]
    constructor
    · rintro ⟨first, hfirst, hnames⟩
      obtain ⟨names, hnames, heq⟩ := List.mem_map.mp hnames
      cases heq
      exact ⟨List.cons_ne_nil _ _, by simpa using (List.mem_filter.mp hfirst).2, hnames⟩
    · rintro ⟨-, hshown, hnames⟩
      exact ⟨name, List.mem_filter.mpr ⟨hmem, by simpa using hshown⟩, List.mem_map_of_mem hnames⟩

section

variable (hclosed : tree.Closed) (hroot : IsRoot root) (hdown : ∀ name ∈ down, IsName name)
  (hspells : Spells root down directory) (hthere : (tree.entry? (down ++ part)).isSome)
include hclosed hroot hdown hspells hthere

theorem mem_names_waysDown_iff (hplace : tree.entry? down = some .directory)
    (hdirectory : directoriesOnly = true → tree.entry? (down ++ part) = some .directory) :
    part ∈ (waysDown tree directoriesOnly directory).map Path.names ↔
      ∀ name ∈ part, isHidden name = false := by
  have hfuel : part.length ≤ tree.entries.length + 1 := by
    have hlength := hclosed.length_le hthere
    rw [List.length_append] at hlength
    omega
  have hbelow := mem_names_below_iff hclosed hthere hdirectory hfuel
  rw [waysDown, directoryPlace?_of_spells hclosed hroot hdown hspells hplace, List.map_cons,
    List.mem_cons, hbelow]
  show part = [] ∨ _ ↔ _
  by_cases hnil : part = []
  · simp [hnil]
  · simp [hnil]

theorem mem_names_namesMatching_iff (hwild : isPattern pattern = true)
    (hplace : tree.entry? down = some .directory)
    (hdirectory : directoriesOnly = true → tree.entry? (down ++ part) = some .directory) :
    part ∈ (namesMatching tree directoriesOnly directory pattern).map Path.names ↔
      ∃ name, part = [name] ∧ fits pattern name = true := by
  have hfound := directoryPlace?_of_spells hclosed hroot hdown hspells hplace
  rw [List.mem_map]
  constructor
  · rintro ⟨name, hname, rfl⟩
    obtain ⟨_, -, hmem, hfits⟩ := (mem_namesMatching_iff hwild).mp hname
    have hproper := isName_of_mem_namesAt hclosed.toProper hmem
    exact ⟨name, Path.names_of_isStep hproper.toIsStep, hfits⟩
  · rintro ⟨name, rfl, hfits⟩
    have hname := (hclosed.toProper.isName_of_entry? hthere (by simp : name ∈ down ++ [name])).1
    have hmem := (mem_namesMatching_iff hwild).mpr
      ⟨down, hfound, mem_namesAt_of_entry? hthere hdirectory, hfits⟩
    exact ⟨name, hmem, Path.names_of_isStep hname.toIsStep⟩

theorem mem_names_lastName_plain_iff (hplain : isPattern pattern = false)
    (hpattern : IsName pattern) :
    part ∈ (lastName tree directoriesOnly directory pattern).map Path.names ↔ part = [pattern] := by
  rw [List.mem_map]
  constructor
  · rintro ⟨way, hway, rfl⟩
    rw [eq_of_mem_lastName hplain hway, Path.names_of_isStep hpattern.toIsStep]
  · rintro rfl
    have hdownName : ∀ name ∈ down ++ [pattern], IsName name := fun name hmem =>
      (hclosed.toProper.isName_of_entry? hthere hmem).1
    have hjoin := hspells.join_eq hroot hdown (fun name hname => hdownName name (by simp_all))
      (List.cons_ne_nil pattern [])
    rw [Path.ofNames_singleton] at hjoin
    have hne : directory ≠ [] := by
      rintro rfl
      cases isAbsolute_of_spells hroot hspells
    have hhas : tree.has (within directory pattern) = true := by
      rw [within, List.isEmpty_eq_false_iff.mpr hne, List.isEmpty_eq_false_iff.mpr hpattern.ne_nil,
        hjoin]
      exact has_rooted hclosed.toProper hroot hdownName (hclosed.isOpen hthere) hthere
    refine ⟨pattern, mem_lastName_iff.mpr (.itself hplain ?_),
      Path.names_of_isStep hpattern.toIsStep⟩
    rw [isInside, List.isEmpty_eq_false_iff.mpr hpattern.ne_nil]
    exact hhas

/-- In a directory, a name of a pattern finds the names that it takes if they lead to something. -/
theorem mem_names_lastName_iff (hpattern : IsName pattern)
    (hplace : tree.entry? down = some .directory) (hdirectory : directoriesOnly = true →
      tree.entry? (down ++ part) = some .directory) :
    part ∈ (lastName tree directoriesOnly directory pattern).map Path.names ↔
      Takes pattern part := by
  by_cases hany : pattern = anyWay
  · subst hany
    rw [lastName_anyWay, Takes, if_pos rfl]
    exact mem_names_waysDown_iff hclosed hroot hdown hspells hthere hplace hdirectory
  · rw [takes_of_ne hany]
    cases hwild : isPattern pattern with
    | true =>
      rw [lastName_of_wild hwild hany]
      exact mem_names_namesMatching_iff hclosed hroot hdown hspells hthere hwild hplace hdirectory
    | false =>
      rw [mem_names_lastName_plain_iff hclosed hroot hdown hspells hthere hwild hpattern]
      simp [fits_iff_eq hwild]

end

/-! ### Whole patterns -/

variable {parts : List (List Text)}

/-- The path to which the parts lead from a root, one after the other. -/
def pathOf (root : Text) (parts : List (List Text)) : Text :=
  parts.foldl (fun directory part => Path.join directory (Path.ofNames part)) root

theorem pathOf_concat (root : Text) (parts : List (List Text)) (part : List Text) :
    pathOf root (parts ++ [part]) = Path.join (pathOf root parts) (Path.ofNames part) := by
  rw [pathOf, List.foldl_append]
  rfl

theorem isName_flatten_concat (h : ∀ name ∈ (parts ++ [part]).flatten, IsName name) :
    (∀ name ∈ parts.flatten, IsName name) ∧ ∀ name ∈ part, IsName name := by
  simp only [List.flatten_append, List.flatten_singleton, List.mem_append] at h
  exact ⟨fun name hname => h name (.inl hname), fun name hname => h name (.inr hname)⟩

theorem spells_pathOf (hroot : IsRoot root) (hparts : ∀ name ∈ parts.flatten, IsName name) :
    Spells root parts.flatten (pathOf root parts) := by
  induction parts using List.reverseRecOn with
  | nil => exact .inl (Path.rooted_nil root).symm
  | append_singleton parts part ih =>
    obtain ⟨hfront, hpart⟩ := isName_flatten_concat hparts
    rw [pathOf_concat, List.flatten_append, List.flatten_singleton]
    exact (ih hfront).join hroot hfront hpart

/-- The parts that are taken by a pattern without wildcards. -/
def single (patterns : List Text) : List (List Text) := patterns.map fun name => [name]

theorem flatten_single (patterns : List Text) : (single patterns).flatten = patterns := by
  rw [single, ← List.flatMap_def, List.flatMap_singleton']

theorem pathOf_single (hroot : IsRoot root) (hpatterns : ∀ name ∈ patterns, IsName name) :
    pathOf root (single patterns) = rooted root patterns := by
  induction patterns using List.reverseRecOn with
  | nil => exact (Path.rooted_nil root).symm
  | append_singleton patterns pattern ih =>
    have hfront := isName_front hpatterns
    rw [single, List.map_append, List.map_singleton, pathOf_concat, Path.ofNames_singleton]
    show Path.join (pathOf root (single patterns)) pattern = _
    rw [ih hfront, Path.join_rooted_name hroot hfront (isName_last hpatterns)]

theorem forall₂_takes_plain_iff (h : patterns.any isPattern = false) :
    List.Forall₂ Takes patterns parts ↔ parts = single patterns := by
  induction patterns generalizing parts with
  | nil => rw [List.forall₂_nil_left_iff, single, List.map_nil]
  | cons pattern patterns ih =>
    rw [List.any_cons, Bool.or_eq_false_iff] at h
    have hany : pattern ≠ anyWay := by
      rintro rfl
      cases h.1
    have htakes (part : List Text) : Takes pattern part ↔ part = [pattern] := by
      rw [takes_of_ne hany]
      constructor
      · rintro ⟨name, rfl, hfits⟩
        rw [(fits_iff_eq h.1).mp hfits]
      · exact fun heq => ⟨pattern, heq, (fits_iff_eq h.1).mpr rfl⟩
    cases parts with
    | nil => simp [single]
    | cons part parts =>
      rw [List.forall₂_cons, htakes, ih h.2, ← List.cons.injEq]
      rfl

/-- The parts lead to something that is looked for: to a directory, or, unless only directories are,
by one name or more to anything. -/
def Leads (tree : Tree) (directoriesOnly : Bool) (parts : List (List Text)) : Prop :=
  tree.entry? parts.flatten = some .directory ∨
    directoriesOnly = false ∧ parts.getLast? ≠ some [] ∧ (tree.entry? parts.flatten).isSome

theorem Leads.isSome (h : Leads tree directoriesOnly parts) :
    (tree.entry? parts.flatten).isSome := by
  rcases h with hdirectory | ⟨-, -, hthere⟩
  · rw [hdirectory]
    rfl
  · exact hthere

theorem Leads.directory_of_only (h : Leads tree directoriesOnly parts)
    (honly : directoriesOnly = true) :
    tree.entry? parts.flatten = some .directory :=
  h.resolve_right fun ⟨hnot, _⟩ => by rw [honly] at hnot; cases hnot

/-- What leads somewhere leads through a directory in front of its last part. -/
theorem Leads.front (hclosed : tree.Closed) (h : Leads tree directoriesOnly (parts ++ [part])) :
    tree.entry? parts.flatten = some .directory := by
  have hthere := h.isSome
  rw [List.flatten_append, List.flatten_singleton] at hthere
  by_cases hnil : part = []
  · subst hnil
    rcases h with hdirectory | ⟨-, hlast, -⟩
    · simpa using hdirectory
    · simp at hlast
  · exact hclosed.directory_front hnil hthere

/-- The parts of the paths that are found: they spell the paths, no division is followed twice, and
those that lead to something are followed just if the pattern takes them. -/
structure Follows (tree : Tree) (root : Text) (directoriesOnly : Bool) (patterns texts : List Text)
    (found : List (List (List Text))) : Prop where
  texts_eq : texts = found.map (pathOf root)
  nodup : found.Nodup
  isName : ∀ parts ∈ found, ∀ name ∈ parts.flatten, IsName name
  mem_iff : ∀ parts, Leads tree directoriesOnly parts →
    (parts ∈ found ↔ List.Forall₂ Takes patterns parts)

variable {texts : List Text}

/-- A pattern without wildcards follows itself. -/
theorem follows_plain (hroot : IsRoot root) (hpatterns : ∀ name ∈ patterns, IsName name)
    (hplain : patterns.any isPattern = false) :
    Follows tree root directoriesOnly patterns [rooted root patterns] [single patterns] where
  texts_eq := by rw [List.map_singleton, pathOf_single hroot hpatterns]
  nodup := List.nodup_singleton _
  isName parts hparts := by
    rw [List.mem_singleton.mp hparts, flatten_single]
    exact hpatterns
  mem_iff parts _ := by rw [List.mem_singleton, forall₂_takes_plain_iff hplain]

/-- The parts that have been found, each with the ways that lead on from there. -/
def extend (found : List (List (List Text))) (ways : List (List Text) → List (List Text)) :
    List (List (List Text)) :=
  found.flatMap fun parts => (ways parts).map fun part => parts ++ [part]

section

variable {found : List (List (List Text))} {ways : List (List Text) → List (List Text)}

theorem nil_not_mem_extend : [] ∉ extend found ways := by
  simp [extend]

theorem concat_mem_extend_iff :
    parts ++ [part] ∈ extend found ways ↔ parts ∈ found ∧ part ∈ ways parts := by
  simp only [extend, List.mem_flatMap, List.mem_map]
  constructor
  · rintro ⟨other, hother, _, hpart, heq⟩
    obtain ⟨rfl, hlast⟩ := List.append_inj' heq rfl
    obtain rfl := List.head_eq_of_cons_eq hlast
    exact ⟨hother, hpart⟩
  · rintro ⟨hparts, hpart⟩
    exact ⟨parts, hparts, part, hpart, rfl⟩

theorem nodup_extend (hfound : found.Nodup) (hways : ∀ parts, (ways parts).Nodup) :
    (extend found ways).Nodup := by
  rw [extend, List.nodup_flatMap]
  refine ⟨fun parts _ => (hways parts).map fun _ _ heq => by simpa using heq,
    hfound.imp fun {parts other} hne => ?_⟩
  intro all hleft hright
  obtain ⟨part, -, rfl⟩ := List.mem_map.mp hleft
  obtain ⟨part', -, heq⟩ := List.mem_map.mp hright
  exact hne (List.append_inj' heq rfl).1.symm

end

/-- What the last name of a pattern finds is spelt by its names. -/
theorem ofNames_names_of_mem_lastName (hclosed : tree.Closed) (hpattern : IsName pattern)
    {way : Text} (hway : way ∈ lastName tree directoriesOnly directory pattern) :
    (∀ name ∈ Path.names way, IsName name) ∧ Path.ofNames (Path.names way) = way := by
  obtain ⟨names, hnames, rfl, -⟩ := lastName_sound hclosed.toProper hpattern hway
  rw [Path.names_ofNames fun name hname => (hnames name hname).toIsStep]
  exact ⟨hnames, rfl⟩

/-- One more name of the pattern: in each directory, it follows what it takes. -/
theorem Follows.concat (hclosed : tree.Closed) (hroot : IsRoot root) (hpattern : IsName pattern)
    {found : List (List (List Text))} (h : Follows tree root true patterns texts found) :
    Follows tree root directoriesOnly (patterns ++ [pattern])
      (texts.flatMap fun directory =>
        (lastName tree directoriesOnly directory pattern).map (Path.join directory))
      (extend found fun parts =>
        (lastName tree directoriesOnly (pathOf root parts) pattern).map Path.names) where
  texts_eq := by
    rw [h.texts_eq, List.flatMap_map, extend, List.map_flatMap]
    refine List.flatMap_congr fun parts _ => ?_
    rw [List.map_map, List.map_map]
    refine List.map_congr_left fun way hway => ?_
    rw [Function.comp_apply, Function.comp_apply, pathOf_concat,
      (ofNames_names_of_mem_lastName hclosed hpattern hway).2]
  nodup := nodup_extend h.nodup fun _ => nodup_names_lastName hclosed
  isName all hall := by
    rcases all.eq_nil_or_concat' with rfl | ⟨parts, part, rfl⟩
    · exact absurd hall nil_not_mem_extend
    · obtain ⟨hparts, hpart⟩ := concat_mem_extend_iff.mp hall
      obtain ⟨way, hway, rfl⟩ := List.mem_map.mp hpart
      rw [List.flatten_append, List.flatten_singleton]
      exact List.forall_mem_append.mpr
        ⟨h.isName parts hparts, (ofNames_names_of_mem_lastName hclosed hpattern hway).1⟩
  mem_iff all hleads := by
    rcases all.eq_nil_or_concat' with rfl | ⟨parts, part, rfl⟩
    · exact iff_of_false nil_not_mem_extend fun htakes => by simpa using htakes.length_eq
    · have hdirectory := hleads.front hclosed
      have hthere := hleads.isSome
      have honly := hleads.directory_of_only
      rw [List.flatten_append, List.flatten_singleton] at hthere honly
      have hfront : ∀ name ∈ parts.flatten, IsName name := fun name hmem =>
        (hclosed.toProper.isName_of_entry? hthere (List.mem_append_left _ hmem)).1
      rw [concat_mem_extend_iff, forall₂_concat_iff, h.mem_iff parts (.inl hdirectory),
        mem_names_lastName_iff hclosed hroot hfront (spells_pathOf hroot hfront) hthere
          hpattern hdirectory honly]

/-- A search follows each way to divide a path among the names of the pattern, once. The induction
follows the names of the pattern, from the last to the first. -/
theorem exists_follows (hclosed : tree.Closed) (hroot : IsRoot root)
    (hpatterns : ∀ name ∈ patterns, IsName name) (hfuel : patterns.length < fuel) :
    ∃ found, Follows tree root directoriesOnly patterns
      (search tree [] fuel directoriesOnly (rooted root patterns)) found := by
  induction fuel generalizing directoriesOnly patterns with
  | zero => omega
  | succ fuel ih =>
    rcases patterns.eq_nil_or_concat' with rfl | ⟨front, pattern, rfl⟩
    · refine ⟨[single []], ?_⟩
      have hself : Follows tree root directoriesOnly [] [rooted root []] [single []] :=
        follows_plain hroot hpatterns rfl
      rw [Path.rooted_nil] at hself ⊢
      rwa [search_root hroot]
    · have hfront := isName_front hpatterns
      rw [search_concat hroot hpatterns]
      split
      · -- The divisions of the front are extended by what the last name takes.
        obtain ⟨found, hfound⟩ : ∃ found, Follows tree root true front
            (searchDirectories tree fuel (rooted root front)) found := by
          unfold searchDirectories
          split
          · exact ih hfront (by simpa using hfuel)
          · rename_i hplain
            rw [isPattern_rooted hroot, Bool.not_eq_true] at hplain
            exact ⟨_, follows_plain hroot hfront hplain⟩
        exact ⟨_, hfound.concat hclosed hroot (isName_last hpatterns)⟩
      · rename_i hplain
        rw [isPattern_rooted hroot, Bool.not_eq_true] at hplain
        have hself : Follows tree root directoriesOnly (front ++ [pattern])
            [rooted root (front ++ [pattern])] [single (front ++ [pattern])] :=
          follows_plain hroot hpatterns hplain
        split
        · exact ⟨_, hself⟩
        · rename_i hhas
          -- Nothing is there, and so no division leads anywhere.
          refine ⟨[], rfl, List.nodup_nil, by simp, fun parts hleads => ?_⟩
          refine iff_of_false List.not_mem_nil fun htakes => hhas ?_
          rw [forall₂_takes_plain_iff hplain] at htakes
          have hthere := hleads.isSome
          rw [htakes, flatten_single] at hthere
          exact has_rooted hclosed.toProper hroot hpatterns (hclosed.isOpen hthere) hthere

/-! ### Files -/

/-- The path to a file is followed in the ways in which its names are divided. -/
theorem pathOf_eq_file_iff (hroot : IsRoot root) (hdown : ∀ name ∈ down, IsName name)
    (hne : down ≠ []) (hthere : (tree.entry? down).isSome) {found : List (List (List Text))}
    (hfound : Follows tree root false patterns texts found) :
    (parts ∈ found ∧ pathOf root parts = rooted root down) ↔ Divides patterns down parts := by
  constructor
  · intro ⟨hmem, hpath⟩
    have hnames := hfound.isName parts hmem
    have hspells := spells_pathOf hroot hnames
    have hflatten : parts.flatten = down := by
      rw [← names_of_spells hroot hnames hspells, hpath, Path.names_rooted hroot hdown]
    -- A last part without names would leave a slash at the end, and a file has none.
    have hlast : parts.getLast? ≠ some [] := by
      intro hlast
      obtain ⟨front, rfl⟩ := List.getLast?_eq_some_iff.mp hlast
      rw [pathOf_concat] at hpath
      have hleaf := congrArg Path.leaf hpath
      obtain ⟨above, name, rfl⟩ := List.eq_nil_or_concat' down |>.resolve_left hne
      rw [Path.leaf_rooted hroot (isName_last hdown)] at hleaf
      exact (isName_last hdown).ne_nil (hleaf.symm.trans (Path.leaf_join_eq_nil rfl _))
    refine ⟨(hfound.mem_iff parts (.inr ⟨rfl, hlast, ?_⟩)).mp hmem, hflatten, hlast⟩
    rwa [hflatten]
  · intro ⟨htakes, hflatten, hlast⟩
    refine ⟨(hfound.mem_iff parts (.inr ⟨rfl, hlast, by rwa [hflatten]⟩)).mpr htakes, ?_⟩
    rcases parts.eq_nil_or_concat' with rfl | ⟨front, part, rfl⟩
    · exact absurd hflatten.symm hne
    · rw [← hflatten] at hdown
      obtain ⟨hfront, hpart⟩ := isName_flatten_concat hdown
      have hpartNe : part ≠ [] := by
        rintro rfl
        simp at hlast
      rw [pathOf_concat,
        (spells_pathOf hroot hfront).join_eq hroot hfront hpart hpartNe, ← hflatten,
        List.flatten_append, List.flatten_singleton]

/-- A pattern from the root finds a file as often as the names of the file can be divided among its
own. -/
theorem count_expandFiles (hclosed : tree.Closed) (hroot : IsRoot root)
    (hpatterns : ∀ name ∈ patterns, IsName name) (hdown : ∀ name ∈ down, IsName name)
    (hfile : tree.isFile (rooted root down) = true) :
    ((expandFiles tree none (rooted root patterns)).count (rooted root down) : ℕ∞) =
      {parts | Divides patterns down parts}.encard := by
  obtain ⟨place, bytes, hlocate, hentry⟩ := Tree.isFile_iff.mp hfile
  obtain ⟨rfl, -, hthere⟩ := (Tree.locate_rooted_iff hclosed.toProper hroot hdown).mp hlocate
  have hne : place ≠ [] := by
    rintro rfl
    cases hentry
  obtain ⟨found, hfound⟩ : ∃ found, Follows tree root false patterns
      (search tree [] ((rooted root patterns).length + 1) false (rooted root patterns)) found :=
    exists_follows hclosed hroot hpatterns
      (Nat.lt_succ_of_le (length_le_length_rooted hpatterns root))
  have hcount : (expandFiles tree none (rooted root patterns)).count (rooted root place) =
      (found.filter fun parts => pathOf root parts == rooted root place).length := by
    have hexpand : (expandFiles tree none (rooted root patterns)).Perm
        ((find tree [] (rooted root patterns)).filter
          fun path => tree.isFile (Path.join [] path)) :=
      List.mergeSort_perm _ _
    rw [hexpand.count_eq, List.count_filter (by rwa [Path.join_nil]), find_rooted hroot,
      hfound.texts_eq, List.count, List.countP_map, List.countP_eq_length_filter]
    rfl
  -- The divisions that lead to the file are among those followed, each of them once.
  have hparts : {parts | Divides patterns place parts} =
      (found.filter fun parts => pathOf root parts == rooted root place).toFinset := by
    ext parts
    rw [Set.mem_ofPred_eq, ← pathOf_eq_file_iff hroot hdown hne hthere hfound]
    simp
  rw [hcount, hparts, Set.encard_coe_eq_coe_finsetCard,
    List.toFinset_card_of_nodup (hfound.nodup.filter _)]

/-- The files of an include are counted by the divisions of their paths. -/
theorem count_absolute (hclosed : tree.Closed) (path : Text) {file : Text}
    (hfile : tree.isFile file = true) (habsolute : Path.absolute tree.cwd file = file)
    (hsame : Path.root file = Path.root (Path.absolute tree.cwd path)) :
    ((expandFiles tree none (Path.absolute tree.cwd path)).count file : ℕ∞) =
      {parts | Divides (Path.names (Path.absolute tree.cwd path))
        (Path.names file) parts}.encard := by
  obtain ⟨root, patterns, hroot, hpatterns, hpattern⟩ :=
    Path.exists_absolute_eq_rooted hclosed.absolute path
  obtain ⟨root', down, hroot', hdown, heq⟩ := Path.exists_absolute_eq_rooted hclosed.absolute file
  obtain rfl : file = rooted root' down := habsolute.symm.trans heq
  rw [hpattern] at hsame ⊢
  obtain rfl : root' = root := by
    rwa [Path.root_rooted hroot' hdown, Path.root_rooted hroot hpatterns] at hsame
  rw [Path.names_rooted hroot hpatterns, Path.names_rooted hroot hdown]
  exact count_expandFiles hclosed hroot hpatterns hdown hfile

theorem absolute_of_mem_expandFiles (hclosed : tree.Closed) (path : Text) {file : Text}
    (h : file ∈ expandFiles tree none (Path.absolute tree.cwd path)) :
    tree.isFile file = true ∧ Path.absolute tree.cwd file = file ∧
      Path.root file = Path.root (Path.absolute tree.cwd path) := by
  obtain ⟨root, patterns, hroot, hpatterns, hpattern⟩ :=
    Path.exists_absolute_eq_rooted hclosed.absolute path
  refine ⟨(mem_expandFiles.mp h).2, ?_⟩
  rw [hpattern] at h ⊢
  obtain ⟨front, name, hdown, rfl, -⟩ :=
    exists_rooted_of_mem_expandFiles hclosed.toProper hroot hpatterns h
  rw [Path.root_rooted hroot hdown, Path.root_rooted hroot hpatterns]
  exact ⟨Path.absolute_rooted hroot hdown _, rfl⟩

/-- A pattern finds paths in code point order. With at most one name for any way down, each comes
before the next. An include finds each file as often as its names can be divided among those of the
pattern, so that each file comes before the next just if each can be divided in one way only. -/
theorem expand_increasing (hclosed : tree.Closed) (cwd : Option Text) (pattern path : Text) :
    ((expand tree cwd pattern).Pairwise fun path other => Text.isBefore other path = false) ∧
    ((Path.names pattern).count anyWay ≤ 1 →
      ((expand tree cwd pattern).Pairwise fun path other => Text.isBefore path other = true) ∧
        (expandFiles tree cwd pattern).Pairwise fun path other => Text.isBefore path other = true) ∧
    (∀ file ∈ expandFiles tree none (Path.absolute tree.cwd path), tree.isFile file = true ∧
      Path.absolute tree.cwd file = file ∧
        Path.root file = Path.root (Path.absolute tree.cwd path)) ∧
    (∀ file, tree.isFile file = true → Path.absolute tree.cwd file = file →
      Path.root file = Path.root (Path.absolute tree.cwd path) →
        ((expandFiles tree none (Path.absolute tree.cwd path)).count file : ℕ∞) =
          {parts | Divides (Path.names (Path.absolute tree.cwd path))
            (Path.names file) parts}.encard) ∧
    (((expandFiles tree none (Path.absolute tree.cwd path)).Pairwise fun file other =>
        Text.isBefore file other = true) ↔
      ∀ file ∈ expandFiles tree none (Path.absolute tree.cwd path),
        ∃! parts, Divides (Path.names (Path.absolute tree.cwd path)) (Path.names file) parts) := by
  have hcount {file : Text} (hfile : file ∈ expandFiles tree none (Path.absolute tree.cwd path)) :
      ((expandFiles tree none (Path.absolute tree.cwd path)).count file : ℕ∞) =
        {parts | Divides (Path.names (Path.absolute tree.cwd path))
          (Path.names file) parts}.encard := by
    obtain ⟨hisFile, habsolute, hroot⟩ := absolute_of_mem_expandFiles hclosed path hfile
    exact count_absolute hclosed path hisFile habsolute hroot
  have hunique {file : Text} (hfile : file ∈ expandFiles tree none (Path.absolute tree.cwd path)) :
      (expandFiles tree none (Path.absolute tree.cwd path)).count file = 1 ↔
        ∃! parts, Divides (Path.names (Path.absolute tree.cwd path)) (Path.names file) parts := by
    rw [← ENat.natCast_inj, Nat.cast_one, hcount hfile, Set.encard_eq_one]
    simp only [Set.eq_singleton_iff_unique_mem]
    rfl
  refine ⟨Text.pairwise_sort _, fun hany => ⟨pairwise_isBefore_expand hclosed hany,
    pairwise_isBefore_expandFiles hclosed hany⟩,
      fun file => absolute_of_mem_expandFiles hclosed path,
    fun file => count_absolute hclosed path, ?_, ?_⟩
  · intro hpairwise file hfile
    exact (hunique hfile).mp
      (List.count_eq_one_of_mem (Text.nodup_of_pairwise_isBefore hpairwise) hfile)
  · intro h
    have hnodup : (expandFiles tree none (Path.absolute tree.cwd path)).Nodup :=
      List.nodup_iff_count_eq_one.mpr fun file hfile => (hunique hfile).mpr (h file hfile)
    exact Text.pairwise_isBefore_sort ((List.mergeSort_perm _ _).nodup_iff.mp hnodup)

/-- A site with a single file, in a directory below the working directory. -/
def nestedFile : Tree where
  cwd := "/site"
  entries := [(["site"], .directory), (["site", "a"], .directory),
    (["site", "a", "x"], .file (Encoding.encodeUtf8 "1"))]

/-- Two names for any way down share the one directory in two ways. -/
theorem expand_increasing_nestedFile :
    nestedFile.Closed ∧
      {parts | Divides (["site", "**", "**", "x"] : List Text) (["site", "a", "x"] : List Text)
        parts}.encard = 2 ∧
      (expand nestedFile none "**/x").Pairwise fun path other =>
        Text.isBefore path other = true := by
  have hclosed : nestedFile.Closed := by decide
  have hpath : Path.absolute nestedFile.cwd "**/**/x" = ("/site/**/**/x" : Text) := by
    decide
  have hfiles : expandFiles nestedFile none "/site/**/**/x" =
      (["/site/a/x", "/site/a/x"] : List Text) := by
    have hfound : ((find nestedFile [] "/site/**/**/x").filter fun path =>
        nestedFile.isFile (Path.join [] path)) = (["/site/a/x", "/site/a/x"] : List Text) := by
      decide
    rw [expandFiles, Option.getD_none, hfound]
    exact List.mergeSort_of_pairwise (by decide)
  obtain ⟨-, hone, -, hcount, -⟩ := expand_increasing hclosed none "**/x" "**/**/x"
  refine ⟨hclosed, ?_, (hone (by decide)).1⟩
  have hfile := hcount "/site/a/x" (by decide) (by decide) (by decide)
  rw [hpath, hfiles] at hfile
  exact hfile.symm.trans rfl

/-- The path of this file is found twice. -/
theorem expand_not_increasing :
    expand nestedFile none "**/**/x" = (["a/x", "a/x"] : List Text) ∧
      ¬ (expand nestedFile none "**/**/x").Pairwise fun path other =>
        Text.isBefore path other = true := by
  have hfind : find nestedFile [] "**/**/x" = (["a/x", "a/x"] : List Text) := by decide
  have htwice : expand nestedFile none "**/**/x" = (["a/x", "a/x"] : List Text) := by
    rw [expand, Option.getD_none, hfind]
    exact List.mergeSort_of_pairwise (by decide)
  refine ⟨htwice, ?_⟩
  rw [htwice]
  decide

end Splice.Glob
