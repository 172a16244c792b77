import Splice.Proofs.Glob.Steady

/-!
# What patterns find in a tree that grows

In a tree that grows, patterns find what they found before, and perhaps more. If they find nothing
at the places at which the tree has changed, they find the same.

* `Glob.mem_search_grows` — what is found in a tree is found in a larger one;
* `Glob.Avoids` — a pattern finds nothing at some places; and
* `Glob.expand_eq_of_avoids`, `Glob.expandFiles_eq_of_avoids` — a pattern that finds nothing where
  trees differ finds the same in them.
-/

namespace Splice.Glob

open Splice.Path (Straight)
open Wildcard (isPattern)

variable {tree other : Tree} {base directory path pattern name way : Text} {place : Place}
  {directoriesOnly : Bool} {fuel : Nat} {cwd : Option Text}

/-! ### Larger trees -/

section

variable (hclosed : tree.Closed) (hclosed' : other.Closed) (hgrows : tree.Grows other)
include hgrows

theorem mem_namesAt_grows (h : name ∈ namesAt tree directoriesOnly place) :
    name ∈ namesAt other directoriesOnly place := by
  have hthere := hgrows.isSome (entry?_of_mem_namesAt h)
  refine List.mem_filter.mpr ⟨Tree.mem_children_iff.mpr hthere, ?_⟩
  have hkind := (List.mem_filter.mp h).2
  cases directoriesOnly with
  | false => rfl
  | true =>
    have hdirectory : tree.entry? (place ++ [name]) = some .directory := by simpa using hkind
    simp [hgrows.directory _ hdirectory]

theorem mem_below_grows (h : way ∈ below tree directoriesOnly fuel place) :
    way ∈ below other directoriesOnly fuel place := by
  induction fuel generalizing place way with
  | zero => exact absurd h List.not_mem_nil
  | succ fuel ih =>
    obtain ⟨name, hname, hway⟩ := List.mem_flatMap.mp h
    obtain ⟨hmem, hshown⟩ := List.mem_filter.mp hname
    refine List.mem_flatMap.mpr ⟨name, List.mem_filter.mpr ⟨mem_namesAt_grows hgrows hmem, hshown⟩,
      ?_⟩
    rcases List.mem_cons.mp hway with heq | hway
    · exact List.mem_cons.mpr (.inl heq)
    · obtain ⟨rest, hrest, heq⟩ := List.mem_map.mp hway
      exact List.mem_cons_of_mem _ (List.mem_map.mpr ⟨rest, ih hrest, heq⟩)

theorem isDirectory_grows (h : tree.isDirectory path = true) : other.isDirectory path = true := by
  unfold Tree.isDirectory Tree.find? at h ⊢
  split at h
  · rename_i place hlocate
    have hdirectory : tree.entry? place = some .directory := by simpa using h
    rw [hgrows.locate hlocate]
    simp [hgrows.directory place hdirectory]
  · cases h

theorem directoryPlace?_grows (h : directoryPlace? tree directory = some place) :
    directoryPlace? other directory = some place := by
  rw [directoryPlace?_eq, Option.ite_none_right_eq_some] at h
  rw [directoryPlace?_eq, if_pos (isDirectory_grows hgrows h.1), Tree.placeOf_of_cwd hgrows.cwd]
  exact h.2

include hclosed

theorem isInside_grows (h : isInside tree directory name = true) :
    isInside other directory name = true := by
  unfold isInside at h ⊢
  split at h
  · rename_i hempty
    rw [if_pos hempty]
    exact isDirectory_grows hgrows h
  · rename_i hempty
    rw [if_neg hempty]
    exact hgrows.has hclosed h

theorem isFound_grows (h : isFound tree base pattern = true) :
    isFound other base pattern = true := by
  unfold isFound at h ⊢
  split at h
  · rename_i hempty
    rw [if_pos hempty]
    exact isDirectory_grows hgrows h
  · rename_i hempty
    rw [if_neg hempty]
    exact hgrows.has hclosed h

include hclosed'

theorem mem_below_all_grows (h : way ∈ below tree directoriesOnly (tree.entries.length + 1) place) :
    way ∈ below other directoriesOnly (other.entries.length + 1) place := by
  let enough := max tree.entries.length other.entries.length + 1
  have htree : below tree directoriesOnly enough place = _ :=
    below_eq hclosed (Nat.lt_succ_self _) (Nat.succ_le_succ (Nat.le_max_left _ _))
  have hother : below other directoriesOnly enough place = _ :=
    below_eq hclosed' (Nat.lt_succ_self _) (Nat.succ_le_succ (Nat.le_max_right _ _))
  rw [← htree] at h
  rw [← hother]
  exact mem_below_grows hgrows h

theorem mem_lastName_grows (h : way ∈ lastName tree directoriesOnly directory name) :
    way ∈ lastName other directoriesOnly directory name := by
  rw [mem_lastName_iff] at h ⊢
  cases h with
  | here => exact .here
  | below hplace hbelow =>
    exact .below (directoryPlace?_grows hgrows hplace)
      (mem_below_all_grows hclosed hclosed' hgrows hbelow)
  | matching hwild hany hmatching =>
    obtain ⟨place, hplace, hmem, hfits⟩ := (mem_namesMatching_iff hwild).mp hmatching
    exact .matching hwild hany ((mem_namesMatching_iff hwild).mpr
      ⟨place, directoryPlace?_grows hgrows hplace, mem_namesAt_grows hgrows hmem, hfits⟩)
  | itself hplain hinside => exact .itself hplain (isInside_grows hclosed hgrows hinside)

/-- What is found in a tree is found in a larger one. -/
theorem mem_search_grows (h : path ∈ search tree base fuel directoriesOnly pattern) :
    path ∈ search other base fuel directoriesOnly pattern := by
  induction fuel generalizing directoriesOnly pattern path with
  | zero => exact absurd h List.not_mem_nil
  | succ fuel ih =>
    rw [mem_search_succ_iff] at h ⊢
    cases h with
    | itself hplain hfound => exact .itself hplain (isFound_grows hclosed hgrows hfound)
    | inside hwild hdirectory hway =>
      refine .inside hwild ?_ (mem_lastName_grows hclosed hclosed' hgrows hway)
      unfold directoriesOf at hdirectory ⊢
      split at hdirectory
      · rename_i hnested
        rw [if_pos hnested]
        exact ih hdirectory
      · rename_i hnested
        rw [if_neg hnested]
        exact hdirectory

end

/-! ### The empty path -/

theorem nil_not_mem_lastName_tail (hclosed : tree.Closed) :
    [] ∉ (lastName tree directoriesOnly directory name).tail := by
  intro hmem
  by_cases hany : name = anyWay
  · subst hany
    rw [lastName_anyWay, waysDown, List.tail_cons] at hmem
    split at hmem
    · exact List.not_mem_nil hmem
    · obtain ⟨names, hne, hnames, heq, -⟩ := exists_entry_of_mem_below hclosed.toProper hmem
      exact Path.ofNames_ne_nil (fun name hname => (hnames name hname).toIsStep) hne heq.symm
  · cases hwild : isPattern name with
    | true =>
      rw [lastName_of_wild hwild hany] at hmem
      obtain ⟨place, -, hname, -⟩ := (mem_namesMatching_iff hwild).mp (List.mem_of_mem_tail hmem)
      exact (isName_of_mem_namesAt hclosed.toProper hname).ne_nil rfl
    | false =>
      rw [lastName_of_plain hwild] at hmem
      split at hmem <;> exact List.not_mem_nil hmem

theorem not_mem_tail_flatMap {α β : Type} {l : List α} {f : α → List β} {b : β} {a : α}
    (hl : a ∉ l.tail) (ha : b ∉ (f a).tail) (h : ∀ a' ∈ l, a' ≠ a → b ∉ f a') :
    b ∉ (l.flatMap f).tail := by
  cases l with
  | nil => exact List.not_mem_nil
  | cons first rest =>
    rw [List.tail_cons] at hl
    have hrest : b ∉ rest.flatMap f := by
      intro hmem
      obtain ⟨a', ha', hmem⟩ := List.mem_flatMap.mp hmem
      exact h a' (List.mem_cons_of_mem _ ha') (fun heq => hl (heq ▸ ha')) hmem
    rw [List.flatMap_cons]
    by_cases hfirst : first = a
    · subst hfirst
      cases hf : f first with
      | nil => exact fun hmem => hrest (List.mem_of_mem_tail hmem)
      | cons c cs =>
        rw [hf, List.tail_cons] at ha
        rw [List.cons_append, List.tail_cons, List.mem_append, not_or]
        exact ⟨ha, hrest⟩
    · intro hmem
      rcases List.mem_append.mp (List.mem_of_mem_tail hmem) with hmem | hmem
      · exact h first List.mem_cons_self hfirst hmem
      · exact hrest hmem

/-- The empty path is found first, if at all, and only once. -/
theorem nil_not_mem_search_tail (hclosed : tree.Closed) :
    [] ∉ (search tree base fuel directoriesOnly pattern).tail := by
  induction fuel generalizing directoriesOnly pattern with
  | zero => exact List.not_mem_nil
  | succ fuel ih =>
    cases hwild : isPattern pattern with
    | false =>
      rw [search_of_plain hwild]
      split <;> exact List.not_mem_nil
    | true =>
      rw [search_of_wild hwild]
      refine not_mem_tail_flatMap (a := []) ?_ ?_ ?_
      · unfold directoriesOf
        split
        · exact ih
        · exact List.not_mem_nil
      · -- Only in the directory itself an empty way gives an empty path.
        have hjoin : Path.join [] = id := funext Path.join_nil
        rw [hjoin, List.map_id]
        exact nil_not_mem_lastName_tail hclosed
      · intro directory _ hne hmem
        obtain ⟨way, -, heq⟩ := List.mem_map.mp hmem
        exact hne (Path.join_eq_nil_iff.mp heq).1

theorem find_eq_filter (hclosed : tree.Closed) (base pattern : Text) :
    find tree base pattern =
      (search tree base (pattern.length + 1) false pattern).filter fun path =>
        !(path.isEmpty && (pattern.isEmpty || Text.hasLead anyWay pattern)) := by
  -- Only the first path that is found can be empty.
  have htail : [] ∉ (search tree base (pattern.length + 1) false pattern).tail :=
    nil_not_mem_search_tail hclosed
  unfold find
  simp only
  generalize search tree base (pattern.length + 1) false pattern = found at htail
  have hrest {rest : List Text} (hnil : [] ∉ rest) :
      (rest.filter
        fun path => !(path.isEmpty && (pattern.isEmpty || Text.hasLead anyWay pattern))) =
        rest := by
    refine List.filter_eq_self.mpr fun path hpath => ?_
    have hne : path.isEmpty = false := by
      rw [List.isEmpty_eq_false_iff]
      intro heq
      exact hnil (heq ▸ hpath)
    rw [hne]
    rfl
  cases found with
  | nil => rfl
  | cons first rest =>
    rw [List.tail_cons] at htail
    cases first with
    | nil =>
      simp only [List.filter_cons, hrest htail]
      cases pattern.isEmpty <;> cases Text.hasLead anyWay pattern <;> rfl
    | cons c first =>
      simp only [List.filter_cons, hrest htail]
      rfl

/-! ### What is found at no place that differs -/

variable {places : Place → Prop} [DecidablePred places]

/-- A pattern finds nothing at some places. -/
def Avoids (places : Place → Prop) (tree : Tree) (cwd : Option Text) (pattern : Text) : Prop :=
  ∀ path ∈ expand tree cwd pattern, ¬ places (tree.placeOf (within (cwd.getD []) path))

instance (tree : Tree) (cwd : Option Text) (pattern : Text) :
    Decidable (Avoids places tree cwd pattern) :=
  inferInstanceAs (Decidable (∀ path ∈ _, _))

section

variable (h : Tree.Apart places tree other) (hgrows : tree.Grows other)
include h hgrows

theorem find_eq_of_avoids (hbase : Straight base) (hpattern : Straight pattern)
    (havoids : ∀ path ∈ find other base pattern, ¬ places (other.placeOf (within base path))) :
    find tree base pattern = find other base pattern := by
  have hfilter : (find other base pattern).filter (seenElsewhere places tree base) =
      (find tree base pattern).filter (seenElsewhere places tree base) := by
    rw [find_eq_filter h.closed, find_eq_filter h.closed', List.filter_comm,
      filter_search h hbase hpattern, List.filter_comm]
  have hother : ∀ path ∈ find other base pattern, seenElsewhere places tree base path = true := by
    intro path hpath
    rw [← seenElsewhere_eq h]
    simpa [seenElsewhere] using havoids path hpath
  have hsubset : ∀ path ∈ find tree base pattern, path ∈ find other base pattern := by
    rw [find_eq_filter h.closed, find_eq_filter h.closed']
    intro path hpath
    obtain ⟨hmem, hkeep⟩ := List.mem_filter.mp hpath
    exact List.mem_filter.mpr ⟨mem_search_grows h.closed h.closed' hgrows hmem, hkeep⟩
  rw [List.filter_eq_self.mpr hother] at hfilter
  rw [hfilter, List.filter_eq_self.mpr fun path hpath => hother path (hsubset path hpath)]

/-- A pattern that finds nothing where the trees differ finds the same. -/
theorem expand_eq_of_avoids (hcwd : Straight (cwd.getD [])) (hpattern : Straight pattern)
    (havoids : Avoids places other cwd pattern) :
    expand tree cwd pattern = expand other cwd pattern := by
  unfold expand
  rw [find_eq_of_avoids h hgrows hcwd hpattern]
  exact fun path hpath => havoids path (List.mem_mergeSort.mpr hpath)

/-- The same for the files among what it finds. -/
theorem expandFiles_eq_of_avoids (hpattern : Straight pattern)
    (havoids : Avoids places other none pattern) :
    expandFiles tree none pattern = expandFiles other none pattern := by
  have hfind : find tree [] pattern = find other [] pattern :=
    find_eq_of_avoids h hgrows (by decide) hpattern fun path hpath =>
      havoids path (List.mem_mergeSort.mpr hpath)
  unfold expandFiles
  simp only [Option.getD_none, hfind]
  congr 1
  refine List.filter_congr fun path hpath => ?_
  have hstraight := straight_of_mem_find h.closed' hpattern hpath
  have hplace : ¬ places (tree.placeOf path) := by
    rw [← h.placeOf]
    exact havoids path (List.mem_mergeSort.mpr hpath)
  rw [Path.join_nil, Tree.isFile, Tree.isFile, h.find?_eq hstraight hplace]

/-- One more pattern of a list, whether it adds paths or takes them away. A pattern with double dots
behind its exclamation mark takes no path away that has none. -/
theorem addPattern_eq_of_avoids {paths : List Text} (hcwd : Straight (cwd.getD []))
    (hpattern : Straight pattern) (hpaths : ∀ path ∈ paths, Straight path)
    (havoids : Avoids places other cwd ((excluded? pattern).getD pattern)) :
    addPattern tree cwd paths pattern = addPattern other cwd paths pattern := by
  unfold addPattern
  split
  · rename_i body hbody
    rw [hbody, Option.getD_some] at havoids
    by_cases hstraight : Straight body
    · rw [expand_eq_of_avoids h hgrows hcwd hstraight havoids]
    · have hkeep {tree : Tree} (hclosed : tree.Closed) :
          paths.filter (fun path => !(expand tree cwd body).contains path) = paths := by
        refine List.filter_eq_self.mpr fun path hpath => ?_
        have hnot : path ∉ expand tree cwd body := fun hmem =>
          not_straight_of_mem_search hclosed hstraight
            (mem_search_of_mem_find (mem_find_of_mem_expand hmem)) (hpaths path hpath)
        simpa using hnot
      rw [hkeep h.closed, hkeep h.closed']
  · rename_i hbody
    rw [hbody, Option.getD_none] at havoids
    rw [expand_eq_of_avoids h hgrows hcwd hpattern havoids]

end

theorem straight_of_mem_addPattern (hclosed : tree.Closed) {paths : List Text}
    (hpattern : Straight pattern) (hpaths : ∀ path ∈ paths, Straight path) :
    ∀ path ∈ addPattern tree cwd paths pattern, Straight path := by
  intro path hpath
  rcases mem_addPattern_iff.mp hpath with ⟨hadds, hnew⟩ | ⟨hold, -⟩
  · rw [matched, hadds, Option.getD_none] at hnew
    exact straight_of_mem_search hclosed hpattern
      (mem_search_of_mem_find (mem_find_of_mem_expand hnew))
  · exact hpaths path hold

/-- A list of patterns that find nothing where the trees differ finds the same. -/
theorem expandAll_eq_of_avoids (h : Tree.Apart places tree other) (hgrows : tree.Grows other)
    {patterns : List Text} (hcwd : Straight (cwd.getD []))
    (hpatterns : ∀ pattern ∈ patterns, Straight pattern)
    (havoids : ∀ pattern ∈ patterns, Avoids places other cwd ((excluded? pattern).getD pattern)) :
    expandAll tree cwd patterns = expandAll other cwd patterns := by
  suffices ∀ paths : List Text, (∀ path ∈ paths, Straight path) →
      patterns.foldl (addPattern tree cwd) paths = patterns.foldl (addPattern other cwd) paths from
    this [] fun path hpath => absurd hpath List.not_mem_nil
  induction patterns with
  | nil => exact fun paths _ => rfl
  | cons pattern patterns ih =>
    intro paths hpaths
    obtain ⟨hpattern, hrest⟩ := List.forall_mem_cons.mp hpatterns
    obtain ⟨havoid, havoids⟩ := List.forall_mem_cons.mp havoids
    rw [List.foldl_cons, List.foldl_cons,
      addPattern_eq_of_avoids h hgrows hcwd hpattern hpaths havoid]
    exact ih hrest havoids _ (straight_of_mem_addPattern h.closed' hpattern hpaths)

/-- What a list of patterns without double dots finds has none. -/
theorem straight_of_mem_expandAll (hclosed : tree.Closed) {patterns : List Text}
    (hpatterns : ∀ pattern ∈ patterns, Straight pattern)
    (hpath : path ∈ expandAll tree cwd patterns) :
    Straight path := by
  obtain ⟨pattern, hmem, -, hfound⟩ := exists_of_mem_expandAll hpath
  exact straight_of_mem_search hclosed (hpatterns pattern hmem)
    (mem_search_of_mem_find (mem_find_of_mem_expand hfound))

end Splice.Glob
