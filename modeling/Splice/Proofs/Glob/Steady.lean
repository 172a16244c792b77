import Splice.Proofs.Glob.Straight
import Splice.Proofs.Tree.Apart

/-!
# What patterns find in trees that differ

A pattern without double dots finds the same in two trees, but for paths that lead to the places at
which the trees differ.

* `Glob.below_eq` — what is below a directory does not take more fuel than the tree has entries;
* `Glob.filter_namesAt`, `Glob.filter_lastName` — the frame of a single name; and
* `Glob.filter_search` — the frame of a search: what leads elsewhere is found alike, in the same
  order.
-/

namespace Splice

open Splice.Path (IsName)

namespace Glob

open Splice.Path (Straight)
open Wildcard (isPattern)

variable {tree other : Tree} {base directory path pattern name way : Text} {place : Place}
  {names : List Text} {directoriesOnly : Bool} {fuel : Nat}

/-! ### Enough fuel -/

theorem below_step (tree : Tree) (directoriesOnly : Bool) (fuel : Nat) (place : Place) :
    below tree directoriesOnly (fuel + 1) place =
      ((namesAt tree directoriesOnly place).filter fun name => !isHidden name).flatMap fun name =>
        name :: (below tree directoriesOnly fuel (place ++ [name])).map (within name) := rfl

/-- What is below a directory takes no more fuel than it has levels. -/
theorem below_succ (hclosed : tree.Closed) (hfuel : tree.entries.length < fuel + place.length) :
    below tree directoriesOnly (fuel + 1) place = below tree directoriesOnly fuel place := by
  induction fuel generalizing place with
  | zero =>
    have hnone : namesAt tree directoriesOnly place = [] := by
      refine List.eq_nil_iff_forall_not_mem.mpr fun name hname => ?_
      have hle := hclosed.length_le (entry?_of_mem_namesAt hname)
      rw [List.length_append, List.length_singleton] at hle
      omega
    rw [below_step, hnone]
    rfl
  | succ fuel ih =>
    rw [below_step, below_step]
    refine List.flatMap_congr fun name _ => ?_
    rw [ih (by rw [List.length_append, List.length_singleton]; omega)]

theorem below_eq (hclosed : tree.Closed) {enough : Nat} (henough : tree.entries.length < enough)
    (hle : enough ≤ fuel) :
    below tree directoriesOnly fuel place = below tree directoriesOnly enough place := by
  induction fuel, hle using Nat.le_induction with
  | base => rfl
  | succ fuel hle ih => rw [below_succ hclosed (by omega), ih]

/-! ### What leads elsewhere -/

variable {places : Place → Prop} [DecidablePred places]

/-- The way does not lead from the place to one of these places. -/
def leadsElsewhere (places : Place → Prop) [DecidablePred places] (place : Place) (way : Text) :
    Bool :=
  !decide (places (Tree.walk place (Text.pieces '/' way)))

theorem leadsElsewhere_nil (place : Place) :
    leadsElsewhere places place [] = !decide (places place) := rfl

theorem leadsElsewhere_name (hname : IsName name) (place : Place) :
    leadsElsewhere places place name = !decide (places (place ++ [name])) := by
  rw [leadsElsewhere, Text.pieces_of_not_mem hname.no_slash]
  show (!decide (places (Tree.stepTo place name))) = _
  rw [Tree.stepTo_name hname]

theorem leadsElsewhere_within (hname : IsName name) (hway : Path.isAbsolute way = false)
    (place : Place) :
    leadsElsewhere places place (within name way) =
      leadsElsewhere places (place ++ [name]) way := by
  by_cases hnil : way = []
  · subst hnil
    rw [within_nil_right, leadsElsewhere_name hname]
    rfl
  · have hwithin : within name way = name ++ '/' :: way := by
      rw [← join_name hname hway]
      simp [within, hname.ne_nil, hnil]
    rw [leadsElsewhere, hwithin, Text.pieces_append, Text.pieces_of_not_mem hname.no_slash,
      Tree.walk_append]
    show (!decide (places (Tree.walk (Tree.stepTo place name) _))) = _
    rw [Tree.stepTo_name hname]
    rfl

theorem leadsElsewhere_ofNames (hnames : ∀ name ∈ names, IsName name) (place : Place) :
    leadsElsewhere places place (Path.ofNames names) = !decide (places (place ++ names)) := by
  by_cases hnil : names = []
  · rw [hnil, List.append_nil]
    exact leadsElsewhere_nil place
  · rw [leadsElsewhere, Text.pieces_ofNames (fun name hname => (hnames name hname).toIsStep) hnil,
      Tree.walk_of_isName hnames]

theorem placeOf_within (tree : Tree) (directory : Text) (hway : Path.isAbsolute way = false) :
    tree.placeOf (within directory way) =
      Tree.walk (tree.placeOf directory) (Text.pieces '/' way) := by
  rw [← Tree.placeOf_join tree directory hway]
  by_cases hdirectory : directory = []
  · subst hdirectory
    rw [within_nil, Path.join_nil]
  · by_cases hnil : way = []
    · subst hnil
      rw [Tree.placeOf_join tree directory hway, within_nil_right]
      rfl
    · simp [within, hdirectory, hnil]

theorem filter_ite_singleton {α : Type} {p : α → Bool} {a : α} (ha : p a = false) (here : Bool) :
    (if here then [a] else []).filter p = [] := by
  cases here <;> simp [ha]

/-- Lists that differ in what gives nothing give the same. -/
theorem flatMap_eq_of_filter {α β : Type} {l l' : List α} {f f' : α → List β} (p : α → Bool)
    (hl : l'.filter p = l.filter p) (h : ∀ a ∈ l, p a = true → f' a = f a)
    (hf : ∀ a ∈ l, p a = false → f a = []) (hf' : ∀ a ∈ l', p a = false → f' a = []) :
    l'.flatMap f' = l.flatMap f := by
  have hdrop {l : List α} {f : α → List β} (hf : ∀ a ∈ l, p a = false → f a = []) :
      (l.filter p).flatMap f = l.flatMap f := by
    induction l with
    | nil => rfl
    | cons a l ih =>
      obtain ⟨ha, hl⟩ := List.forall_mem_cons.mp hf
      cases hp : p a with
      | true => rw [List.filter_cons_of_pos hp, List.flatMap_cons, List.flatMap_cons, ih hl]
      | false =>
        rw [List.filter_cons_of_neg (by simp [hp]), List.flatMap_cons, ha hp, ih hl]
        rfl
  rw [← hdrop hf', hl, ← hdrop hf]
  refine List.flatMap_congr fun a ha => ?_
  exact h a (List.mem_filter.mp ha).1 (List.mem_filter.mp ha).2

section

variable (h : Tree.Apart places tree other)
include h

/-- A directory has the same names, but for those of the places. -/
theorem filter_namesAt (directoriesOnly : Bool) (place : Place) :
    (namesAt other directoriesOnly place).filter (fun name => !decide (places (place ++ [name]))) =
      (namesAt tree directoriesOnly place).filter fun name =>
        !decide (places (place ++ [name])) := by
  unfold namesAt
  rw [List.filter_comm, h.filter_children]
  conv_rhs => rw [List.filter_comm]
  refine List.filter_congr fun name hname => ?_
  have helse : ¬ places (place ++ [name]) := by
    simpa using (List.mem_filter.mp hname).2
  rw [h.entry? helse]

/-- What is below a place that differs is at such places. -/
theorem not_leadsElsewhere_of_mem_below (hplace : places place)
    (hway : way ∈ below tree directoriesOnly fuel place) :
    leadsElsewhere places place way = false := by
  obtain ⟨names, -, hnames, rfl, hthere⟩ := exists_entry_of_mem_below h.closed.toProper hway
  rw [leadsElsewhere_ofNames hnames]
  simpa using h.below place names hplace hthere

theorem isAbsolute_of_mem_below (hway : way ∈ below tree directoriesOnly fuel place) :
    Path.isAbsolute way = false := by
  obtain ⟨names, -, hnames, rfl, -⟩ := exists_entry_of_mem_below h.closed.toProper hway
  exact Path.isAbsolute_ofNames fun name hname => (hnames name hname).toIsStep

/-- What is below a name leads elsewhere, seen from the directory of the name, just if it does seen
from the name. -/
theorem filter_below_name (hname : IsName name) :
    ((below tree directoriesOnly fuel (place ++ [name])).map (within name)).filter
        (leadsElsewhere places place) =
      ((below tree directoriesOnly fuel (place ++ [name])).filter
        (leadsElsewhere places (place ++ [name]))).map (within name) := by
  rw [List.filter_map]
  congr 1
  refine List.filter_congr fun way hway => ?_
  exact leadsElsewhere_within hname (isAbsolute_of_mem_below h hway) place

/-- The same is below a directory, but for what is at the places. -/
theorem filter_below (directoriesOnly : Bool) (fuel : Nat) (place : Place) :
    (below other directoriesOnly fuel place).filter (leadsElsewhere places place) =
      (below tree directoriesOnly fuel place).filter (leadsElsewhere places place) := by
  induction fuel generalizing place with
  | zero => rfl
  | succ fuel ih =>
    -- What is found below one of the places is filtered away.
    have hnone {tree other : Tree} (h : Tree.Apart places tree other) :
        ∀ name ∈ (namesAt tree directoriesOnly place).filter fun name => !isHidden name,
          (!decide (places (place ++ [name]))) = false →
            (name :: (below tree directoriesOnly fuel (place ++ [name])).map (within name)).filter
              (leadsElsewhere places place) = [] := by
      intro name hmem hplace
      have hname := isName_of_mem_namesAt h.closed.toProper (List.mem_filter.mp hmem).1
      rw [List.filter_cons_of_neg (by rw [leadsElsewhere_name hname, hplace]; simp),
        filter_below_name h hname, List.map_eq_nil_iff, List.filter_eq_nil_iff]
      intro way hway
      rw [not_leadsElsewhere_of_mem_below h (by simpa using hplace) hway]
      simp
    rw [below_step, below_step, List.filter_flatMap, List.filter_flatMap]
    refine flatMap_eq_of_filter (fun name => !decide (places (place ++ [name]))) ?_ ?_ (hnone h)
      (hnone h.symm)
    · rw [List.filter_comm, filter_namesAt h, List.filter_comm]
    · intro name hmem hplace
      have hname := isName_of_mem_namesAt h.closed.toProper (List.mem_filter.mp hmem).1
      have hhead : leadsElsewhere places place name = true := by
        rw [leadsElsewhere_name hname]
        exact hplace
      rw [List.filter_cons_of_pos hhead, List.filter_cons_of_pos hhead, filter_below_name h hname,
        filter_below_name h.symm hname, ih]

theorem isDirectory_eq (hstraight : Path.Straight directory)
    (hplace : ¬ places (tree.placeOf directory)) :
    other.isDirectory directory = tree.isDirectory directory := by
  rw [Tree.isDirectory, Tree.isDirectory, h.find?_eq hstraight hplace]

/-- A directory that is elsewhere is the same in both trees. -/
theorem directoryPlace?_same (hstraight : Path.Straight directory)
    (hplace : ¬ places (tree.placeOf directory)) :
    directoryPlace? other directory = directoryPlace? tree directory := by
  have hlist : other.isDirectory (listPath directory) = tree.isDirectory (listPath directory) := by
    unfold listPath
    split
    · rename_i hnil
      rw [List.isEmpty_iff.mp hnil] at hplace
      exact isDirectory_eq h (by decide) hplace
    · exact isDirectory_eq h hstraight hplace
  rw [directoryPlace?_eq, directoryPlace?_eq, hlist, h.placeOf]

/-- The same is below a directory, whatever the fuel is for which each tree is large enough. -/
theorem filter_below_all (directoriesOnly : Bool) (place : Place) :
    (below other directoriesOnly (other.entries.length + 1) place).filter
        (leadsElsewhere places place) =
      (below tree directoriesOnly (tree.entries.length + 1) place).filter
        (leadsElsewhere places place) := by
  let enough := max tree.entries.length other.entries.length + 1
  have hother : below other directoriesOnly enough place = _ :=
    below_eq h.closed' (Nat.lt_succ_self _) (Nat.succ_le_succ (Nat.le_max_right _ _))
  have htree : below tree directoriesOnly enough place = _ :=
    below_eq h.closed (Nat.lt_succ_self _) (Nat.succ_le_succ (Nat.le_max_left _ _))
  rw [← hother, ← htree]
  exact filter_below h directoriesOnly enough place

section

variable (hstraight : Straight directory) (hplace : ¬ places (tree.placeOf directory))
include hstraight hplace

theorem filter_waysDown (directoriesOnly : Bool) :
    (waysDown other directoriesOnly directory).filter
      (leadsElsewhere places (tree.placeOf directory)) =
      (waysDown tree directoriesOnly directory).filter
        (leadsElsewhere places (tree.placeOf directory)) := by
  unfold waysDown
  rw [directoryPlace?_same h hstraight hplace, directoryPlace?_eq]
  cases tree.isDirectory (listPath directory) with
  | false => rfl
  | true =>
    simp only [if_true]
    rw [List.filter_cons, List.filter_cons, filter_below_all h]

theorem filter_namesMatching (directoriesOnly : Bool) (name : Text) :
    (namesMatching other directoriesOnly directory name).filter
        (leadsElsewhere places (tree.placeOf directory)) =
      (namesMatching tree directoriesOnly directory name).filter
        (leadsElsewhere places (tree.placeOf directory)) := by
  unfold namesMatching
  rw [directoryPlace?_same h hstraight hplace, directoryPlace?_eq]
  cases tree.isDirectory (listPath directory) with
  | false => rfl
  | true =>
    simp only [if_true]
    have hnames {tree : Tree} (hclosed : tree.Closed) (place : Place) :
        (namesAt tree directoriesOnly place).filter (leadsElsewhere places place) =
          (namesAt tree directoriesOnly place).filter
            fun name => !decide (places (place ++ [name])) :=
      List.filter_congr fun name hmem =>
        leadsElsewhere_name (isName_of_mem_namesAt hclosed.toProper hmem) place
    rw [List.filter_comm, hnames h.closed', filter_namesAt h, ← hnames h.closed, List.filter_comm]

/-- A name that leads elsewhere is in both directories or in neither. -/
theorem isInside_same (hname : '/' ∉ name) (hdots : name ≠ ['.', '.'])
    (hkeep : leadsElsewhere places (tree.placeOf directory) name = true) :
    isInside other directory name = isInside tree directory name := by
  unfold isInside
  split
  · exact isDirectory_eq h hstraight hplace
  · have hrelative : Path.isAbsolute name = false := by
      cases name with
      | nil => rfl
      | cons c name =>
        have hc : c ≠ '/' := fun hc => hname (hc ▸ List.mem_cons_self)
        simp [Path.isAbsolute, hc]
    have hwithin : ¬ places (tree.placeOf (within directory name)) := by
      rw [placeOf_within tree directory hrelative]
      simpa [leadsElsewhere] using hkeep
    have hstraightName : Straight name := by
      rw [Straight, Text.pieces_of_not_mem hname, List.mem_singleton]
      exact Ne.symm hdots
    rw [Tree.has, Tree.has, h.find?_eq (hstraight.within hstraightName) hwithin]

/-- The last name of a pattern finds the same in a directory that is elsewhere, but for what leads
to the places. -/
theorem filter_lastName_elsewhere (hname : '/' ∉ name) (hdots : name ≠ ['.', '.'])
    (directoriesOnly : Bool) :
    (lastName other directoriesOnly directory name).filter
        (leadsElsewhere places (tree.placeOf directory)) =
      (lastName tree directoriesOnly directory name).filter
        (leadsElsewhere places (tree.placeOf directory)) := by
  by_cases hany : name = anyWay
  · subst hany
    exact filter_waysDown h hstraight hplace directoriesOnly
  · cases hwild : isPattern name with
    | true =>
      rw [lastName_of_wild hwild hany, lastName_of_wild hwild hany]
      exact filter_namesMatching h hstraight hplace directoriesOnly name
    | false =>
      rw [lastName_of_plain hwild, lastName_of_plain hwild]
      cases hkeep : leadsElsewhere places (tree.placeOf directory) name with
      | true => rw [isInside_same h hstraight hplace hname hdots hkeep]
      | false => rw [filter_ite_singleton hkeep, filter_ite_singleton hkeep]

end

/-- In a directory at one of the places, there is nothing elsewhere. -/
theorem not_leadsElsewhere_of_mem_lastName (hplace : places (tree.placeOf directory))
    (hname : '/' ∉ name) (hdots : name ≠ ['.', '.'])
    (hway : way ∈ lastName tree directoriesOnly directory name) :
    leadsElsewhere places (tree.placeOf directory) way = false := by
  by_cases hnil : way = []
  · rw [hnil, leadsElsewhere_nil]
    simpa using hplace
  · have habsolute := isAbsolute_of_mem_lastName h.closed hname hdots hway
    have hhas := has_of_mem_lastName h.closed hway hnil
    -- The way leads to something below one of the places, which is one of them itself.
    have hthere :
        (tree.entry? (Tree.walk (tree.placeOf directory) (Text.pieces '/' way))).isSome := by
      rw [← placeOf_within tree directory habsolute]
      cases hlocate : tree.locate (within directory way) with
      | error fault => simp [Tree.has, Tree.find?, hlocate] at hhas
      | ok place =>
        have hsome := Tree.locate_isSome h.closed hlocate
        rwa [Tree.locate_eq_placeOf hlocate] at hsome
    rcases exists_names_of_mem_lastName h.closed hname hdots hway with ⟨names, hnames, rfl⟩ | rfl
    · rw [leadsElsewhere_ofNames hnames]
      have hsteps : ∀ name ∈ names, Path.IsStep name :=
        fun name hname => (hnames name hname).toIsStep
      have hne : names ≠ [] := by
        intro hnames
        rw [hnames] at hnil
        exact hnil rfl
      rw [Text.pieces_ofNames hsteps hne, Tree.walk_of_isName hnames] at hthere
      simpa using h.below _ _ hplace hthere
    · show (!decide (places (tree.placeOf directory))) = false
      simpa using hplace

/-- The last name of a pattern finds the same, but for what leads to the places. -/
theorem filter_lastName (hstraight : Straight directory) (hname : '/' ∉ name)
    (hdots : name ≠ ['.', '.']) (directoriesOnly : Bool) :
    (lastName other directoriesOnly directory name).filter
        (leadsElsewhere places (tree.placeOf directory)) =
      (lastName tree directoriesOnly directory name).filter
        (leadsElsewhere places (tree.placeOf directory)) := by
  by_cases hplace : places (tree.placeOf directory)
  · have hplace' : places (other.placeOf directory) := by
      rw [h.placeOf]
      exact hplace
    rw [List.filter_eq_nil_iff.mpr, List.filter_eq_nil_iff.mpr]
    · intro way hway
      rw [not_leadsElsewhere_of_mem_lastName h hplace hname hdots hway]
      exact Bool.false_ne_true
    · intro way hway
      rw [← h.placeOf, not_leadsElsewhere_of_mem_lastName h.symm hplace' hname hdots hway]
      exact Bool.false_ne_true
  · exact filter_lastName_elsewhere h hstraight hplace hname hdots directoriesOnly

end

/-! ### Whole patterns -/

/-- The path, seen from a directory, does not lead to one of these places. -/
def seenElsewhere (places : Place → Prop) [DecidablePred places] (tree : Tree) (base path : Text) :
    Bool :=
  !decide (places (tree.placeOf (within base path)))

theorem placeOf_within_congr (tree : Tree) (base : Text) {one two : Text}
    (hnames : Path.names one = Path.names two)
    (habsolute : Path.isAbsolute one = Path.isAbsolute two) :
    tree.placeOf (within base one) = tree.placeOf (within base two) := by
  cases hone : Path.isAbsolute one with
  | true =>
    have hwithin {path : Text} (hpath : Path.isAbsolute path = true) : within base path = path := by
      have hne : path ≠ [] := by
        intro hnil
        rw [hnil] at hpath
        cases hpath
      by_cases hbase : base = [] <;> simp [within, hbase, hne, Path.join, hpath]
    rw [hwithin hone, hwithin (habsolute ▸ hone), Tree.placeOf_eq_walk_names,
      Tree.placeOf_eq_walk_names, hnames, Tree.startOf, Tree.startOf, habsolute]
  | false =>
    rw [placeOf_within tree base hone,
      placeOf_within tree base (habsolute ▸ hone), ← Tree.walk_filter, ← Tree.walk_filter _
        (Text.pieces '/' two)]
    exact congrArg (Tree.walk _) hnames

theorem placeOf_within_join (tree : Tree) (base directory : Text)
    (hway : Path.isAbsolute way = false) :
    tree.placeOf (within base (Path.join directory way)) =
      Tree.walk (tree.placeOf (within base directory)) (Text.pieces '/' way) := by
  by_cases hdirectory : directory = []
  · rw [hdirectory, Path.join_nil, placeOf_within tree base hway, within_nil_right]
  · by_cases hbase : base = []
    · rw [hbase, within_nil, within_nil, Tree.placeOf_join tree directory hway]
    · have hjoin : Path.join directory way ≠ [] := by
        unfold Path.join
        rw [hway]
        simp only [Bool.false_eq_true, if_false]
        split <;> simp [hdirectory]
      have hleft : within base (Path.join directory way) =
          Path.join (Path.join base directory) way := by
        rw [← Path.join_assoc hdirectory]
        simp [within, hbase, hjoin]
      have hright : within base directory = Path.join base directory := by
        simp [within, hbase, hdirectory]
      rw [hleft, hright, Tree.placeOf_join tree _ hway]

section

variable (h : Tree.Apart places tree other)
include h

/-- A pattern without wildcards finds the same unless it leads to one of the places. -/
theorem isFound_same (hbase : Straight base) (hpattern : Straight pattern)
    (hkeep : seenElsewhere places tree base pattern = true) :
    isFound other base pattern = isFound tree base pattern := by
  have hplace : ¬ places (tree.placeOf (within base pattern)) := by
    simpa [seenElsewhere] using hkeep
  unfold isFound
  split
  · rename_i hleaf
    have hparent := placeOf_within_congr tree base (Path.names_parent (List.isEmpty_iff.mp hleaf))
      (Path.isAbsolute_parent _).symm
    exact isDirectory_eq h (hbase.within hpattern.parent) (by rwa [← hparent])
  · rw [Tree.has, Tree.has, h.find?_eq (hbase.within hpattern) hplace]

theorem filter_map_join (hname : '/' ∉ name) (hdots : name ≠ ['.', '.'])
    (base directory : Text) (directoriesOnly : Bool) :
    ((lastName tree directoriesOnly (within base directory) name).map (Path.join directory)).filter
        (seenElsewhere places tree base) =
      ((lastName tree directoriesOnly (within base directory) name).filter
        (leadsElsewhere places (tree.placeOf (within base directory)))).map
          (Path.join directory) := by
  rw [List.filter_map]
  congr 1
  refine List.filter_congr fun way hway => ?_
  have hrelative := isAbsolute_of_mem_lastName h.closed hname hdots hway
  show (!decide (places (tree.placeOf (within base (Path.join directory way))))) = _
  rw [placeOf_within_join tree base directory hrelative]
  rfl

theorem seenElsewhere_eq : seenElsewhere places other base = seenElsewhere places tree base := by
  funext path
  rw [seenElsewhere, seenElsewhere, h.placeOf]

/-- What the last name of a pattern finds in a directory that is found: the same, but for what leads
to the places. -/
theorem filter_inDirectory (hbase : Straight base) (hdirectory : Straight directory)
    (hname : '/' ∉ name) (hdots : name ≠ ['.', '.']) (directoriesOnly : Bool) :
    ((lastName other directoriesOnly (within base directory) name).map (Path.join directory)).filter
        (seenElsewhere places tree base) =
      ((lastName tree directoriesOnly (within base directory) name).map
        (Path.join directory)).filter (seenElsewhere places tree base) := by
  rw [← seenElsewhere_eq h, filter_map_join h.symm hname hdots, h.placeOf, seenElsewhere_eq h,
    filter_map_join h hname hdots, filter_lastName h (hbase.within hdirectory) hname hdots]

/-- In a directory that leads to one of the places, nothing is found that leads elsewhere. -/
theorem filter_inDirectory_eq_nil (hname : '/' ∉ name) (hdots : name ≠ ['.', '.'])
    (hplace : seenElsewhere places tree base directory = false) (directoriesOnly : Bool) :
    ((lastName tree directoriesOnly (within base directory) name).map (Path.join directory)).filter
      (seenElsewhere places tree base) = [] := by
  have hthere : places (tree.placeOf (within base directory)) := by
    simpa [seenElsewhere] using hplace
  rw [filter_map_join h hname hdots, List.map_eq_nil_iff, List.filter_eq_nil_iff]
  intro way hway
  rw [not_leadsElsewhere_of_mem_lastName h hthere hname hdots hway]
  exact Bool.false_ne_true

/-- A pattern without double dots finds the same, in the same order, but for what leads to the
places. -/
theorem filter_search (hbase : Straight base) (hpattern : Straight pattern) (fuel : Nat)
    (directoriesOnly : Bool) :
    (search other base fuel directoriesOnly pattern).filter (seenElsewhere places tree base) =
      (search tree base fuel directoriesOnly pattern).filter (seenElsewhere places tree base) := by
  induction fuel generalizing directoriesOnly pattern with
  | zero => rfl
  | succ fuel ih =>
    have hname := Path.slash_not_mem_leaf pattern
    have hdots := hpattern.leaf_ne_dots
    cases hwild : isPattern pattern with
    | false =>
      rw [search_of_plain hwild, search_of_plain hwild]
      cases hkeep : seenElsewhere places tree base pattern with
      | true => rw [isFound_same h hbase hpattern hkeep]
      | false => rw [filter_ite_singleton hkeep, filter_ite_singleton hkeep]
    | true =>
      rw [search_of_wild hwild, search_of_wild hwild, List.filter_flatMap, List.filter_flatMap]
      -- Directories seen elsewhere are found in both trees; what the others hold is filtered away.
      refine flatMap_eq_of_filter (seenElsewhere places tree base) ?_ ?_ ?_ ?_
      · unfold directoriesOf
        split
        · exact ih hpattern.parent true
        · rfl
      · intro directory hdirectory _
        refine filter_inDirectory h hbase ?_ hname hdots directoriesOnly
        rcases mem_directoriesOf hdirectory with hdirectory | rfl
        · exact straight_of_mem_search h.closed hpattern.parent hdirectory
        · exact hpattern.parent
      · intro directory _ hplace
        exact filter_inDirectory_eq_nil h hname hdots hplace directoriesOnly
      · intro directory _ hplace
        rw [← seenElsewhere_eq h] at hplace ⊢
        exact filter_inDirectory_eq_nil h.symm hname hdots hplace directoriesOnly

end

end Glob

end Splice
