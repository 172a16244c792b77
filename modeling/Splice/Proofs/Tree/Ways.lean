import Mathlib.Data.List.Infix
import Splice.Proofs.Tree.Closed
import Splice.Proofs.Tree.Files

/-!
# Ways through a tree

The places that names lead to, one after the other, and what it means that a tree changes at certain
places only.

* `Tree.OnWay` — the places on the way that names lead;
* `Tree.follow_of_onWay`, `Tree.directory_of_onWay` — names lead on through directories;
* `Tree.SameOutside` — trees that differ at certain places only;
* `Tree.Closed.put` — something new in a directory leaves a tree closed; and
* `Tree.locate_toPath` — a route is followed name by name.
-/

namespace Splice

open Splice.Path (IsName IsStep IsRoot)

namespace Tree

/-! ### Ways -/

/-- The place is one to which a lead of the names leads. -/
def OnWay (start : Place) (names : List Text) (place : Place) : Prop :=
  ∃ front, front <+: names ∧ place = walk start front

instance (start : Place) (names : List Text) (place : Place) :
    Decidable (OnWay start names place) :=
  decidable_of_iff (place ∈ names.inits.map (walk start)) (by
    simp only [List.mem_map, List.mem_inits, OnWay]
    exact exists_congr fun front => and_congr_right fun _ => eq_comm)

variable {tree made left : Tree} {start place target : Place} {names : List Text} {name : Text}

theorem onWay_concat_iff :
    OnWay start (names ++ [name]) place ↔
      OnWay start names place ∨ place = walk start (names ++ [name]) := by
  constructor
  · rintro ⟨front, hfront, hplace⟩
    rcases List.prefix_concat_iff.mp hfront with rfl | hfront
    · exact .inr hplace
    · exact .inl ⟨front, hfront, hplace⟩
  · rintro (⟨front, hfront, hplace⟩ | hplace)
    · exact ⟨front, hfront.trans (List.prefix_append _ _), hplace⟩
    · exact ⟨_, List.prefix_refl _, hplace⟩

theorem onWay_start (start : Place) (names : List Text) : OnWay start names start :=
  ⟨[], List.nil_prefix, rfl⟩

theorem onWay_end (start : Place) (names : List Text) : OnWay start names (walk start names) :=
  ⟨names, List.prefix_refl _, rfl⟩

/-- Names on whose way there are directories are followed to the end. -/
theorem follow_of_onWay
    (h : ∀ place, OnWay start names place → tree.entry? place = some .directory) :
    tree.follow start names = .ok (walk start names) := by
  induction names using List.reverseRecOn with
  | nil => rfl
  | append_singleton names name ih =>
    have hfront := ih fun place hplace => h place (onWay_concat_iff.mpr (.inl hplace))
    have hdirectory := h _ (onWay_concat_iff.mpr (.inl (onWay_end start names)))
    have hend := h _ (onWay_end start (names ++ [name]))
    rw [follow_append, hfront, walk_concat]
    rw [walk_concat] at hend
    show tree.follow (walk start names) [name] = _
    by_cases hstays : Stays name
    · have hstep : stepTo (walk start names) name = walk start names := if_pos hstays
      exact (follow_stays_iff hstays).mpr ⟨hstep, hend⟩
    · by_cases hdots : name = ['.', '.']
      · subst hdots
        simp [follow, hdirectory, stepTo]
      · have hproper : name ≠ [] ∧ name ≠ ['.'] := not_or.mp hstays
        have hstep : stepTo (walk start names) name = walk start names ++ [name] := by
          simp [stepTo, hproper, hdots]
        exact (follow_down_iff hproper hdots).mpr ⟨hstep, hdirectory, by rw [hend]; rfl⟩

/-- Names that lead to a directory have directories on their way. -/
theorem directory_of_onWay (h : tree.follow start names = .ok target)
    (htarget : tree.entry? target = some .directory) (hplace : OnWay start names place) :
    tree.entry? place = some .directory := by
  obtain ⟨front, ⟨rest, rfl⟩, rfl⟩ := hplace
  rw [follow_append] at h
  obtain ⟨next, hfront, h⟩ := bind_eq_ok_iff.mp h
  rw [← follow_eq_walk hfront]
  cases rest with
  | nil =>
    cases h
    exact htarget
  | cons name rest => exact (follow_cons h).1

/-- Where there is no file on the way, names can only lead to nothing because something is
missing. -/
theorem eq_missing_of_follow {fault : Fault}
    (hfree : ∀ place, OnWay start names place → ∀ bytes, tree.entry? place ≠ some (.file bytes))
    (h : tree.follow start names = .error fault) : fault = .missing := by
  induction names generalizing start with
  | nil => cases h
  | cons name names ih =>
    -- Behind the first name the rest of the way is free, too.
    have hrest (next : Place) (hnext : stepTo start name = next)
        (hfollow : tree.follow next names = .error fault) : fault = .missing := by
      refine ih (fun place hplace => hfree place ?_) hfollow
      obtain ⟨front, hfront, rfl⟩ := hplace
      exact ⟨name :: front, List.cons_prefix_cons.mpr ⟨rfl, hfront⟩, by rw [← hnext]; rfl⟩
    rw [follow] at h
    split at h
    · cases h
      rfl
    · rename_i bytes hfile
      exact absurd hfile (hfree start (onWay_start start _) bytes)
    · split at h
      · rename_i hstay
        exact hrest start (if_pos hstay) h
      · rename_i hstay
        split at h
        · rename_i hdots
          subst hdots
          exact hrest start.dropLast rfl h
        · rename_i hdots
          split at h
          · cases h
            rfl
          · refine hrest (start ++ [name]) ?_ h
            simp [stepTo, not_or.mp hstay, hdots]

/-! ### Trees that differ at certain places -/

/-- Outside the places the trees have the same entries, in the same order. -/
def SameOutside (places : Place → Prop) [DecidablePred places] (tree other : Tree) : Prop :=
  other.cwd = tree.cwd ∧
    other.entries.filter (fun item => !decide (places item.1)) =
      tree.entries.filter fun item => !decide (places item.1)

section

variable {places : Place → Prop} [DecidablePred places] {other third : Tree}

theorem SameOutside.refl (places : Place → Prop) [DecidablePred places] (tree : Tree) :
    SameOutside places tree tree := ⟨rfl, rfl⟩

theorem SameOutside.symm (h : SameOutside places tree other) : SameOutside places other tree :=
  ⟨h.1.symm, h.2.symm⟩

theorem SameOutside.trans (h : SameOutside places tree other)
    (h' : SameOutside places other third) :
    SameOutside places tree third :=
  ⟨h'.1.trans h.1, h'.2.trans h.2⟩

theorem filter_putEntry (hplace : places place) (entry : Entry) (entries : List (Place × Entry)) :
    (putEntry place entry entries).filter (fun item => !decide (places item.1)) =
      entries.filter fun item => !decide (places item.1) := by
  induction entries with
  | nil => simp [putEntry, hplace]
  | cons item entries ih =>
    obtain ⟨other, old⟩ := item
    rw [putEntry]
    split
    · rename_i heq
      subst heq
      simp [hplace]
    · rw [List.filter_cons, List.filter_cons, ih]

theorem sameOutside_put (hplace : places place) (entry : Entry) :
    SameOutside places tree (tree.put place entry) := by
  unfold put
  split
  · exact .refl places tree
  · exact ⟨rfl, filter_putEntry hplace entry tree.entries⟩

theorem lookup_filter (hplace : ¬ places place) (entries : List (Place × Entry)) :
    (entries.filter fun item => !decide (places item.1)).lookup place = entries.lookup place := by
  induction entries with
  | nil => rfl
  | cons item entries ih =>
    obtain ⟨other, entry⟩ := item
    rw [List.filter_cons, lookup_cons]
    split
    · rw [lookup_cons, ih]
    · rename_i hother
      have hne : place ≠ other := by
        rintro rfl
        simp [hplace] at hother
      rw [if_neg hne, ih]

theorem SameOutside.entry? (h : SameOutside places tree other) (hplace : ¬ places place) :
    Tree.entry? other place = Tree.entry? tree place := by
  rw [Tree.entry?, Tree.entry?, ← lookup_filter hplace, ← lookup_filter hplace tree.entries, h.2]

end

/-! ### Putting something into a closed tree -/

theorem mem_putEntry {item : Place × Entry} {entry : Entry} {entries : List (Place × Entry)}
    (h : item ∈ putEntry place entry entries) : item = (place, entry) ∨ item ∈ entries := by
  induction entries with
  | nil => exact .inl (List.mem_singleton.mp h)
  | cons first entries ih =>
    obtain ⟨other, old⟩ := first
    rw [putEntry] at h
    split at h
    · exact (List.mem_cons.mp h).imp_right (List.mem_cons_of_mem _)
    · rcases List.mem_cons.mp h with rfl | h
      · exact .inr List.mem_cons_self
      · exact (ih h).imp_right (List.mem_cons_of_mem _)

theorem map_fst_putEntry (place : Place) (entry : Entry) (entries : List (Place × Entry)) :
    (putEntry place entry entries).map Prod.fst =
      if place ∈ entries.map Prod.fst then entries.map Prod.fst
      else entries.map Prod.fst ++ [place] := by
  induction entries with
  | nil => rfl
  | cons first entries ih =>
    obtain ⟨other, old⟩ := first
    rw [putEntry]
    by_cases heq : other = place
    · simp [heq]
    · rw [if_neg heq, List.map_cons, ih]
      by_cases hmem : place ∈ entries.map Prod.fst
      · simp [hmem]
      · have hnew : place ∉ ((other, old) :: entries).map Prod.fst := by
          rw [List.map_cons, List.mem_cons, not_or]
          exact ⟨Ne.symm heq, hmem⟩
        rw [if_neg hmem, if_neg hnew]
        rfl

/-- Something proper that is put into a directory, but not over one, keeps the tree closed. -/
theorem Closed.put (h : tree.Closed) (hname : IsName name) (hnull : '\x00' ∉ name)
    (hplace : tree.entry? place = some .directory) {entry : Entry}
    (hkeeps : tree.entry? (place ++ [name]) = some .directory → entry = .directory) :
    (tree.put (place ++ [name]) entry).Closed := by
  have hne : place ++ [name] ≠ [] := by simp
  have hcases {item : Place × Entry} (hitem : item ∈ (tree.put (place ++ [name]) entry).entries) :
      item = (place ++ [name], entry) ∨ item ∈ tree.entries := by
    rw [Tree.put, if_neg hne] at hitem
    exact mem_putEntry hitem
  -- Directories stay what they are.
  have hstays (other : Place) (hother : tree.entry? other = some .directory) :
      Tree.entry? (tree.put (place ++ [name]) entry) other = some .directory := by
    rw [entry?_put hne]
    split
    · rename_i heq
      rw [hkeeps (heq ▸ hother)]
    · exact hother
  have hnames (other : Text) (hother : other ∈ place ++ [name]) :
      IsName other ∧ '\x00' ∉ other := by
    rcases List.mem_append.mp hother with hmem | hmem
    · exact h.isName_of_entry? (by rw [hplace]; rfl) hmem
    · rw [List.mem_singleton.mp hmem]
      exact ⟨hname, hnull⟩
  have hcwd : (tree.put (place ++ [name]) entry).cwd = tree.cwd := by rw [Tree.put, if_neg hne]
  refine ⟨⟨by rw [hcwd]; exact h.absolute, ?_, ?_, ?_⟩, ?_, ?_⟩
  · intro item hitem other hother
    rcases hcases hitem with rfl | hitem
    · exact (hnames other hother).1
    · exact h.isName item hitem other hother
  · intro item hitem other hother
    rcases hcases hitem with rfl | hitem
    · exact (hnames other hother).2
    · exact h.no_null item hitem other hother
  · rw [Tree.put, if_neg hne, map_fst_putEntry]
    split
    · exact h.nodup
    · rename_i hnew
      exact h.nodup.append (List.nodup_singleton _) (by simpa using hnew)
  · intro item hitem
    rcases hcases hitem with rfl | hitem
    · rw [List.dropLast_concat]
      exact hstays place hplace
    · exact hstays _ (h.parent item hitem)
  · have hhere : (tree.put (place ++ [name]) entry).here = tree.here := by
      unfold Tree.here
      rw [hcwd]
    rw [hhere]
    exact hstays _ h.here

/-! ### Routes -/

/-- The place at which a route starts. -/
def startAt (tree : Tree) (root : Text) : Place := if root = [] then tree.here else []

variable {root : Text} {reversed : List Text}

theorem null_not_mem_toPath (hroot : root = [] ∨ IsRoot root)
    (hnull : ∀ name ∈ reversed, '\x00' ∉ name) : '\x00' ∉ Route.toPath ⟨root, reversed⟩ := by
  have hslashes : '\x00' ∉ root := by
    rcases hroot with rfl | rfl | rfl <;> decide
  have hnames : '\x00' ∉ Path.ofNames reversed.reverse := by
    rw [Path.mem_ofNames_iff (by decide)]
    rintro ⟨name, hname, hmem⟩
    exact hnull name (List.mem_reverse.mp hname) hmem
  unfold Route.toPath
  simp only
  split
  · decide
  · rw [List.mem_append, not_or]
    exact ⟨hslashes, hnames⟩

/-- A route is followed name by name. -/
theorem locate_toPath (hclosed : tree.Closed) (hroot : root = [] ∨ IsRoot root)
    (hsteps : ∀ name ∈ reversed, IsStep name) (hnull : ∀ name ∈ reversed, '\x00' ∉ name) :
    tree.locate (Route.toPath ⟨root, reversed⟩) =
      tree.follow (tree.startAt root) reversed.reverse := by
  have hnames : ∀ name ∈ reversed.reverse, IsStep name :=
    fun name hname => hsteps name (List.mem_reverse.mp hname)
  have hno := null_not_mem_toPath hroot hnull
  rcases hroot with rfl | hroot
  · by_cases hnil : reversed = []
    · subst hnil
      -- A route without names is written as a lone dot.
      have hhere := hclosed.here
      have hstay : tree.follow tree.here [['.']] = .ok tree.here :=
        (follow_stays_iff (.inr rfl)).mpr ⟨rfl, hhere⟩
      exact hstay
    · have hne : reversed.reverse ≠ [] := by simpa using hnil
      have hpath : Route.toPath ⟨[], reversed⟩ = Path.ofNames reversed.reverse := by
        simp [Route.toPath, Path.ofNames_ne_nil hnames hne]
      rw [hpath] at hno ⊢
      have hproper :
        ¬ ((Path.ofNames reversed.reverse).isEmpty ∨ '\x00' ∈ Path.ofNames reversed.reverse) := by
          simp [Path.ofNames_ne_nil hnames hne, hno]
      rw [locate, if_neg hproper, Text.pieces_ofNames hnames hne]
      simp [Tree.startOf, Path.isAbsolute_ofNames hnames, startAt]
  · have hpath : Route.toPath ⟨root, reversed⟩ = Path.rooted root reversed.reverse := by
      rcases hroot with rfl | rfl <;> rfl
    rw [hpath] at hno ⊢
    have hempty : (Path.rooted root reversed.reverse).isEmpty = false := by
      rcases hroot with rfl | rfl <;> rfl
    have hstart : tree.startAt root = [] := by
      rcases hroot with rfl | rfl <;> rfl
    have habsolute : Path.isAbsolute (Path.rooted root reversed.reverse) = true :=
      Path.isAbsolute_root_append hroot _
    rw [locate, if_neg (by simp [hempty, hno]), Tree.startOf, if_pos habsolute,
      follow_rooted hroot hnames, hstart]

end Tree

end Splice
