import Mathlib.Data.List.Basic
import Mathlib.Data.List.Induction
import Mathlib.Data.Nat.Find
import Splice.Glob.Basic

/-!
# Lists of patterns

A list of patterns is worked off from left to right: a pattern adds the paths that it finds behind
those that are there, and one with an exclamation mark takes away what it finds. What is there in
the end, and in which order, can be said without working anything off:

* `Glob.Adds`, `Glob.Drops` — the pattern at some place of the list adds a path, or takes it away;
* `Glob.Places` — the pattern to which a path owes its place; and
* `Glob.expandAll_ordered` — the paths that are there in the end are those with such a pattern, in
  the order of these patterns and, for one pattern, in the order in which it finds them.
-/

namespace Splice

/-! ### The order of texts -/

namespace Text

theorem isBefore_iff {s t : Text} : isBefore s t = true ↔ s < t := by
  induction s generalizing t with
  | nil => cases t <;> simp [isBefore]
  | cons c s ih =>
    cases t with
    | nil => simp [isBefore]
    | cons d t =>
      rw [isBefore, List.cons_lt_cons_iff]
      split
      · rename_i heq
        simp [heq, ih]
      · rename_i hne
        simp only [decide_eq_true_eq, hne, false_and, or_false]
        exact Iff.rfl

/-- No text stands behind one that it comes before. -/
theorem pairwise_sort (texts : List Text) :
    (sort texts).Pairwise fun s t => isBefore t s = false := by
  have hnot {s t : Text} : (!isBefore t s) = true ↔ ¬ t < s := by
    rw [Bool.not_eq_true', ← Bool.not_eq_true, isBefore_iff]
  refine (List.pairwise_mergeSort (fun s t u hst htu => ?_) (fun s t => ?_) texts).imp fun h => ?_
  · rw [hnot, List.not_lt] at hst htu ⊢
    exact List.le_trans hst htu
  · rw [Bool.or_eq_true, hnot, hnot, List.not_lt, List.not_lt]
    exact List.le_total s t
  · rwa [Bool.not_eq_true'] at h

end Text

namespace Glob

variable {tree : Tree} {cwd : Option Text} {patterns paths found : List Text} {pattern path : Text}

/-! ### One pattern -/

/-- Adds a path unless it is there. -/
def addPath (paths : List Text) (path : Text) : List Text :=
  if paths.contains path then paths else paths ++ [path]

/-- Of the paths found, those that are not there, each once, in the order of their first
occurrence. -/
structure Fresh (paths found new : List Text) : Prop where
  mem_iff : ∀ path, path ∈ new ↔ path ∈ found ∧ path ∉ paths
  ordered : new.Pairwise fun path other => found.idxOf path < found.idxOf other

namespace Fresh

variable {new : List Text} {last : Text}

/-- Where the paths occur first does not change when one more is found. -/
theorem ordered_concat (h : Fresh paths found new) (last : Text) :
    new.Pairwise fun path other =>
      (found ++ [last]).idxOf path < (found ++ [last]).idxOf other := by
  refine h.ordered.imp_of_mem fun hpath hother hlt => ?_
  rwa [List.idxOf_append_of_mem ((h.mem_iff _).mp hpath).1,
    List.idxOf_append_of_mem ((h.mem_iff _).mp hother).1]

theorem same (h : Fresh paths found new) (hlast : last ∈ paths ++ new) :
    Fresh paths (found ++ [last]) new where
  mem_iff path := by
    rw [h.mem_iff, List.mem_append, List.mem_singleton]
    constructor
    · exact fun ⟨hfound, hnot⟩ => ⟨.inl hfound, hnot⟩
    · rintro ⟨hfound | rfl, hnot⟩
      · exact ⟨hfound, hnot⟩
      · exact (h.mem_iff path).mp ((List.mem_append.mp hlast).resolve_left hnot)
  ordered := h.ordered_concat last

theorem concat (h : Fresh paths found new) (hlast : last ∉ paths ++ new) :
    Fresh paths (found ++ [last]) (new ++ [last]) where
  mem_iff path := by
    have hnot : last ∉ paths := fun hmem => hlast (List.mem_append_left _ hmem)
    rw [List.mem_append, h.mem_iff, List.mem_append, List.mem_singleton, or_and_right]
    exact or_congr_right ⟨fun heq => ⟨heq, heq ▸ hnot⟩, And.left⟩
  ordered := by
    refine List.pairwise_append.mpr ⟨h.ordered_concat last, List.pairwise_singleton _ _, ?_⟩
    intro path hpath other hother
    obtain rfl := List.mem_singleton.mp hother
    obtain ⟨hfound, -⟩ := (h.mem_iff path).mp hpath
    have hnew : other ∉ found := by
      intro hmem
      have hthere := not_or.mp (List.mem_append.not.mp hlast)
      exact hthere.2 ((h.mem_iff other).mpr ⟨hmem, hthere.1⟩)
    rw [List.idxOf_append_of_mem hfound, List.idxOf_append_of_notMem hnew]
    exact Nat.lt_add_right _ (List.idxOf_lt_length_of_mem hfound)

end Fresh

/-- What is added to a list of paths. -/
theorem exists_foldl_addPath (paths found : List Text) :
    ∃ new, found.foldl addPath paths = paths ++ new ∧ Fresh paths found new := by
  induction found using List.reverseRecOn with
  | nil => exact ⟨[], by simp, by simp, .nil⟩
  | append_singleton found last ih =>
    obtain ⟨new, hfold, hfresh⟩ := ih
    rw [List.foldl_append, hfold, List.foldl_cons, List.foldl_nil, addPath]
    by_cases hlast : last ∈ paths ++ new
    · exact ⟨new, by rw [if_pos (List.contains_iff_mem.mpr hlast)], hfresh.same hlast⟩
    · refine ⟨new ++ [last], ?_, hfresh.concat hlast⟩
      rw [if_neg (List.contains_iff_mem.not.mpr hlast), List.append_assoc]

variable (tree cwd)

/-- What a pattern finds, without its exclamation mark. -/
def matched (pattern : Text) : List Text := expand tree cwd ((excluded? pattern).getD pattern)

variable {tree cwd}

theorem addPattern_of_adds (h : excluded? pattern = none) :
    addPattern tree cwd paths pattern = (matched tree cwd pattern).foldl addPath paths := by
  rw [addPattern, matched, h]
  rfl

theorem addPattern_of_drops (h : excluded? pattern ≠ none) :
    addPattern tree cwd paths pattern =
      paths.filter fun path => !(matched tree cwd pattern).contains path := by
  obtain ⟨body, hbody⟩ := Option.ne_none_iff_exists'.mp h
  rw [addPattern, matched, hbody]
  rfl

theorem mem_addPattern_iff :
    path ∈ addPattern tree cwd paths pattern ↔
      (excluded? pattern = none ∧ path ∈ matched tree cwd pattern) ∨
        path ∈ paths ∧ ¬ (excluded? pattern ≠ none ∧ path ∈ matched tree cwd pattern) := by
  by_cases h : excluded? pattern = none
  · obtain ⟨new, hfold, hfresh⟩ := exists_foldl_addPath paths (matched tree cwd pattern)
    rw [addPattern_of_adds h, hfold, List.mem_append, hfresh.mem_iff]
    by_cases hpath : path ∈ paths <;> simp [h, hpath]
  · rw [addPattern_of_drops h, List.mem_filter]
    simp [h]

/-! ### The places of a list -/

section

variable (tree cwd) (patterns : List Text)

/-- The pattern at a place of the list has no exclamation mark, and finds the path. -/
def Adds (place : Nat) (path : Text) : Prop :=
  ∃ pattern, patterns[place]? = some pattern ∧ excluded? pattern = none ∧
    path ∈ matched tree cwd pattern

/-- The pattern at a place of the list has an exclamation mark, and finds the path. -/
def Drops (place : Nat) (path : Text) : Prop :=
  ∃ pattern, patterns[place]? = some pattern ∧ excluded? pattern ≠ none ∧
    path ∈ matched tree cwd pattern

/-- The pattern at this place of the list is the first that adds the path behind all that take it
away. -/
structure Places (place : Nat) (path : Text) : Prop where
  adds : Adds tree cwd patterns place path
  kept : ∀ later, place < later → ¬ Drops tree cwd patterns later path
  first : ∀ earlier, earlier < place → Adds tree cwd patterns earlier path →
    ∃ between, earlier < between ∧ Drops tree cwd patterns between path

/-- Where the path is first among those that the pattern at a place of the list finds. -/
def rank (place : Nat) (path : Text) : Nat :=
  (matched tree cwd (patterns[place]?.getD [])).idxOf path

/-- The one path owes its place to an earlier pattern than the other, or is found first by the
same. -/
def Precedes (path other : Text) : Prop :=
  ∃ place place', Places tree cwd patterns place path ∧ Places tree cwd patterns place' other ∧
    (place < place' ∨ place = place' ∧
      rank tree cwd patterns place path < rank tree cwd patterns place other)

end

variable {place : Nat}

theorem Places.unique {place' : Nat} (h : Places tree cwd patterns place path)
    (h' : Places tree cwd patterns place' path) : place = place' := by
  refine Nat.le_antisymm (Nat.le_of_not_lt fun hlt => ?_) (Nat.le_of_not_lt fun hlt => ?_)
  · obtain ⟨between, hbetween, hdrops⟩ := h.first place' hlt h'.adds
    exact h'.kept between hbetween hdrops
  · obtain ⟨between, hbetween, hdrops⟩ := h'.first place hlt h.adds
    exact h.kept between hbetween hdrops

/-- The places of a list with one more pattern. -/
theorem getElem?_concat_iff {other : Text} :
    (patterns ++ [pattern])[place]? = some other ↔
      patterns[place]? = some other ∨ place = patterns.length ∧ pattern = other := by
  rcases Nat.lt_trichotomy place patterns.length with hlt | rfl | hlt
  · simp [List.getElem?_append_left hlt, Nat.ne_of_lt hlt]
  · simp
  · have hnone : patterns[place]? = none := List.getElem?_eq_none (Nat.le_of_lt hlt)
    have hlength : (patterns ++ [pattern]).length ≤ place := by
      rw [List.length_append, List.length_singleton]
      exact hlt
    simp [hnone, List.getElem?_eq_none hlength, Nat.ne_of_gt hlt]

theorem adds_concat_iff :
    Adds tree cwd (patterns ++ [pattern]) place path ↔
      Adds tree cwd patterns place path ∨
        place = patterns.length ∧ excluded? pattern = none ∧ path ∈ matched tree cwd pattern := by
  simp only [Adds, getElem?_concat_iff, or_and_right, exists_or, and_assoc, exists_and_left,
    exists_eq_left']

theorem drops_concat_iff :
    Drops tree cwd (patterns ++ [pattern]) place path ↔
      Drops tree cwd patterns place path ∨
        place = patterns.length ∧ excluded? pattern ≠ none ∧ path ∈ matched tree cwd pattern := by
  simp only [Drops, getElem?_concat_iff, or_and_right, exists_or, and_assoc, exists_and_left,
    exists_eq_left']

theorem Adds.lt (h : Adds tree cwd patterns place path) : place < patterns.length := by
  obtain ⟨pattern, hpattern, -⟩ := h
  exact (List.getElem?_eq_some_iff.mp hpattern).1

theorem Drops.lt (h : Drops tree cwd patterns place path) : place < patterns.length := by
  obtain ⟨pattern, hpattern, -⟩ := h
  exact (List.getElem?_eq_some_iff.mp hpattern).1

theorem expandAll_concat :
    expandAll tree cwd (patterns ++ [pattern]) =
      addPattern tree cwd (expandAll tree cwd patterns) pattern := by
  simp only [expandAll, List.foldl_append, List.foldl_cons, List.foldl_nil]

/-- A path is there in the end just if a pattern adds it, and none behind takes it away. -/
theorem mem_expandAll_iff :
    path ∈ expandAll tree cwd patterns ↔
      ∃ place, Adds tree cwd patterns place path ∧
        ∀ later, place < later → ¬ Drops tree cwd patterns later path := by
  induction patterns using List.reverseRecOn with
  | nil => simp [expandAll, Adds]
  | append_singleton patterns pattern ih =>
    rw [expandAll_concat, mem_addPattern_iff, ih]
    simp only [adds_concat_iff, drops_concat_iff]
    constructor
    · rintro (⟨hadds, hfound⟩ | ⟨⟨place, hadds, hkept⟩, hnot⟩)
      · -- The last pattern adds the path, and none is behind it.
        refine ⟨patterns.length, .inr ⟨rfl, hadds, hfound⟩, fun later hlater => ?_⟩
        rintro (hdrops | ⟨rfl, -⟩)
        · exact absurd hdrops.lt (Nat.lt_asymm hlater)
        · exact absurd hlater (Nat.lt_irrefl _)
      · refine ⟨place, .inl hadds, fun later hlater => ?_⟩
        rintro (hdrops | ⟨-, hdrops⟩)
        · exact hkept later hlater hdrops
        · exact hnot hdrops
    · rintro ⟨place, hadds | ⟨-, hadds⟩, hkept⟩
      · refine .inr ⟨⟨place, hadds, fun later hlater hdrops => hkept later hlater (.inl hdrops)⟩,
          ?_⟩
        exact fun hdrops => hkept patterns.length hadds.lt (.inr ⟨rfl, hdrops⟩)
      · exact .inl hadds

/-- What a list of patterns finds is found by one of them. -/
theorem exists_of_mem_expandAll (h : path ∈ expandAll tree cwd patterns) :
    ∃ pattern ∈ patterns, excluded? pattern = none ∧ path ∈ expand tree cwd pattern := by
  obtain ⟨place, ⟨pattern, hpattern, hadds, hfound⟩, -⟩ := mem_expandAll_iff.mp h
  rw [matched, hadds] at hfound
  exact ⟨pattern, List.mem_of_getElem? hpattern, hadds, hfound⟩

/-! ### The order of a list -/

/-- A path keeps its place if the next pattern does not take it away. -/
theorem Places.concat (h : Places tree cwd patterns place path)
    (hnot : ¬ (excluded? pattern ≠ none ∧ path ∈ matched tree cwd pattern)) :
    Places tree cwd (patterns ++ [pattern]) place path where
  adds := adds_concat_iff.mpr (.inl h.adds)
  kept later hlater hdrops := by
    rcases drops_concat_iff.mp hdrops with hdrops | ⟨-, hdrops⟩
    · exact h.kept later hlater hdrops
    · exact hnot hdrops
  first earlier hearlier hadds := by
    rcases adds_concat_iff.mp hadds with hadds | ⟨rfl, -⟩
    · obtain ⟨between, hbetween, hdrops⟩ := h.first earlier hearlier hadds
      exact ⟨between, hbetween, drops_concat_iff.mpr (.inl hdrops)⟩
    · exact absurd h.adds.lt (Nat.lt_asymm hearlier)

/-- A path that was not there owes its place to the pattern that adds it. -/
theorem places_last (hadds : excluded? pattern = none) (hfound : path ∈ matched tree cwd pattern)
    (hnew : path ∉ expandAll tree cwd patterns) :
    Places tree cwd (patterns ++ [pattern]) patterns.length path where
  adds := adds_concat_iff.mpr (.inr ⟨rfl, hadds, hfound⟩)
  kept later hlater hdrops := by
    have hlt := hdrops.lt
    rw [List.length_append, List.length_singleton] at hlt
    exact absurd hlater (Nat.not_lt.mpr (Nat.le_of_lt_succ hlt))
  first earlier hearlier hadds := by
    rcases adds_concat_iff.mp hadds with hadds | ⟨rfl, -⟩
    · by_contra hnone
      refine hnew (mem_expandAll_iff.mpr ⟨earlier, hadds, fun later hlater hdrops => hnone ?_⟩)
      exact ⟨later, hlater, drops_concat_iff.mpr (.inl hdrops)⟩
    · exact absurd hearlier (Nat.lt_irrefl _)

theorem rank_concat (h : place < patterns.length) :
    rank tree cwd (patterns ++ [pattern]) place path = rank tree cwd patterns place path := by
  rw [rank, rank, List.getElem?_append_left h]

theorem rank_last : rank tree cwd (patterns ++ [pattern]) patterns.length path =
    (matched tree cwd pattern).idxOf path := by
  simp [rank]

theorem Precedes.concat {other : Text} (h : Precedes tree cwd patterns path other)
    (hpath : ¬ (excluded? pattern ≠ none ∧ path ∈ matched tree cwd pattern))
    (hother : ¬ (excluded? pattern ≠ none ∧ other ∈ matched tree cwd pattern)) :
    Precedes tree cwd (patterns ++ [pattern]) path other := by
  obtain ⟨place, place', hplaces, hplaces', hbefore⟩ := h
  refine ⟨place, place', hplaces.concat hpath, hplaces'.concat hother, hbefore.imp_right ?_⟩
  rintro ⟨rfl, hrank⟩
  have hlt := hplaces.adds.lt
  exact ⟨rfl, by rwa [rank_concat hlt, rank_concat hlt]⟩

/-- Every path that is there in the end owes its place to some pattern. -/
theorem exists_places (h : path ∈ expandAll tree cwd patterns) :
    ∃ place, Places tree cwd patterns place path := by
  classical
  have hplace := mem_expandAll_iff.mp h
  refine ⟨Nat.find hplace, (Nat.find_spec hplace).1, (Nat.find_spec hplace).2, ?_⟩
  intro earlier hearlier hadds
  by_contra hnone
  refine Nat.find_min hplace hearlier ⟨hadds, fun later hlater hdrops => hnone ?_⟩
  exact ⟨later, hlater, hdrops⟩

theorem pairwise_expandAll (tree : Tree) (cwd : Option Text) (patterns : List Text) :
    (expandAll tree cwd patterns).Pairwise (Precedes tree cwd patterns) := by
  induction patterns using List.reverseRecOn with
  | nil => exact .nil
  | append_singleton patterns pattern ih =>
    rw [expandAll_concat]
    by_cases hadds : excluded? pattern = none
    · -- A pattern that adds: what is new stands behind what was there, in its own order.
      obtain ⟨new, hfold, hfresh⟩ :=
        exists_foldl_addPath (expandAll tree cwd patterns) (matched tree cwd pattern)
      have hkeep (path : Text) : ¬ (excluded? pattern ≠ none ∧ path ∈ matched tree cwd pattern) :=
        fun h => h.1 hadds
      have hlast {path : Text} (hpath : path ∈ new) :
          Places tree cwd (patterns ++ [pattern]) patterns.length path :=
        places_last hadds ((hfresh.mem_iff path).mp hpath).1 ((hfresh.mem_iff path).mp hpath).2
      rw [addPattern_of_adds hadds, hfold]
      refine List.pairwise_append.mpr ⟨ih.imp fun h => h.concat (hkeep _) (hkeep _), ?_, ?_⟩
      · refine hfresh.ordered.imp_of_mem fun hpath hother hrank => ?_
        exact ⟨_, _, hlast hpath, hlast hother, .inr ⟨rfl, by rwa [rank_last, rank_last]⟩⟩
      · intro path hpath other hother
        obtain ⟨place, hplaces⟩ := exists_places hpath
        exact ⟨place, _, hplaces.concat (hkeep _), hlast hother, .inl hplaces.adds.lt⟩
    · -- A pattern that drops: the others keep their places.
      rw [addPattern_of_drops hadds]
      have hkeep {path : Text} (h : path ∈ (expandAll tree cwd patterns).filter
          fun path => !(matched tree cwd pattern).contains path) :
          ¬ (excluded? pattern ≠ none ∧ path ∈ matched tree cwd pattern) := by
        rintro ⟨-, hfound⟩
        simpa [hfound] using (List.mem_filter.mp h).2
      exact (ih.filter _).imp_of_mem fun hpath hother h => h.concat (hkeep hpath) (hkeep hother)

theorem Precedes.ne {other : Text} (h : Precedes tree cwd patterns path other) : path ≠ other := by
  rintro rfl
  obtain ⟨place, place', hplaces, hplaces', hbefore⟩ := h
  obtain rfl := hplaces.unique hplaces'
  rcases hbefore with hlt | ⟨-, hlt⟩
  · exact Nat.lt_irrefl _ hlt
  · exact Nat.lt_irrefl _ hlt

/-- What a list of patterns finds. No path occurs twice. A path is there just if a pattern without
an exclamation mark finds it and no pattern behind that one, with an exclamation mark, finds it too.
It then owes its place to one pattern, the first without the mark that finds it behind the last with
the mark that does. The paths are in the order of these patterns, and those of one pattern in the
order in which it finds them first, and it finds them in code point order. -/
theorem expandAll_ordered (tree : Tree) (cwd : Option Text) (patterns : List Text) :
    (expandAll tree cwd patterns).Nodup ∧
      (∀ path, path ∈ expandAll tree cwd patterns ↔
        ∃ place, Adds tree cwd patterns place path ∧
          ∀ later, place < later → ¬ Drops tree cwd patterns later path) ∧
      (∀ path ∈ expandAll tree cwd patterns, ∃ place, Places tree cwd patterns place path ∧
        ∀ other, Places tree cwd patterns other path → other = place) ∧
      (expandAll tree cwd patterns).Pairwise (Precedes tree cwd patterns) ∧
      ∀ pattern, (matched tree cwd pattern).Pairwise fun path other =>
        Text.isBefore other path = false := by
  have hordered := pairwise_expandAll tree cwd patterns
  refine ⟨hordered.imp Precedes.ne, fun path => mem_expandAll_iff, fun path hpath => ?_, hordered,
    fun pattern => Text.pairwise_sort _⟩
  obtain ⟨place, hplaces⟩ := exists_places hpath
  exact ⟨place, hplaces, fun other hother => hother.unique hplaces⟩

-- A path that comes back stands behind those that have stayed.
example :
    let file (name : Text) : Place × Entry := ([name], .file [])
    expandAll { cwd := "/", entries := [file "a", file "b", file "c"] } none
      ["c", "*", "!a", "[ab]"] =
      (["c", "b", "a"] : List Text) := by
  cbv

end Glob

end Splice
