import Splice.Proofs.Tree.Ways

/-!
# Making directories

Making a directory, with those above it, makes all directories on the way to it. In a closed tree
this succeeds if no file is on the way, and then nothing else changes.

* `Tree.Made` — what is left when the directories on a way have been made;
* `Tree.made_of_makeDirectories` — it is left when they are made; and
* `Tree.exists_made` — they can be made.
-/

namespace Splice

open Splice.Path (IsName IsStep IsRoot)

namespace Tree

variable {tree made left : Tree} {start place target : Place} {names : List Text} {name : Text}
  {root : Text} {reversed : List Text}

/-- What is left when the directories on a way have been made. -/
structure Made (tree : Tree) (start : Place) (names : List Text) (left : Tree) : Prop where
  free : ∀ place, OnWay start names place → ∀ bytes, tree.entry? place ≠ some (.file bytes)
  entry? : ∀ place, left.entry? place =
    if OnWay start names place then some .directory else tree.entry? place
  closed : left.Closed
  outside : ∀ (places : Place → Prop) [DecidablePred places],
    (∀ place, OnWay start names place → tree.entry? place = none → places place) →
      SameOutside places tree left

theorem Made.cwd (h : Made tree start names left) : left.cwd = tree.cwd :=
  (h.outside (fun _ => True) fun _ _ _ => trivial).1

theorem Made.startAt (h : Made tree start names left) (root : Text) :
    left.startAt root = tree.startAt root := by
  rw [Tree.startAt, Tree.startAt, Tree.here, Tree.here, h.cwd]

theorem Made.directory (h : Made tree start names left) (hplace : OnWay start names place) :
    left.entry? place = some .directory := by
  rw [h.entry? place, if_pos hplace]

/-- Only directories are made. -/
theorem Made.ne_file (h : Made tree start names left) {bytes : Bytes}
    (hplace : tree.entry? place ≠ some (.file bytes)) : left.entry? place ≠ some (.file bytes) := by
  rw [h.entry? place]
  split
  · simp
  · exact hplace

/-- Where there are directories already, nothing is made. -/
theorem made_self (hclosed : tree.Closed)
    (h : ∀ place, OnWay start names place → tree.entry? place = some .directory) :
    Made tree start names tree where
  free place hplace bytes := by
    rw [h place hplace]
    intro hfile
    cases hfile
  entry? place := by
    split
    · rename_i hplace
      exact h place hplace
    · rfl
  closed := hclosed
  outside places _ _ := .refl places tree

/-- A way is made by making its beginning first. -/
theorem Made.trans {front : List Text} (hfront : front <+: names) (h : Made tree start front made)
    (h' : Made made start names left) : Made tree start names left := by
  have honWay (place : Place) (hplace : OnWay start front place) : OnWay start names place := by
    obtain ⟨lead, hlead, hplace⟩ := hplace
    exact ⟨lead, hlead.trans hfront, hplace⟩
  refine ⟨?_, ?_, h'.closed, ?_⟩
  · intro place hplace bytes hfile
    -- What the first step has made is a directory, and what it left alone is as before.
    by_cases hbefore : OnWay start front place
    · exact h.free place hbefore bytes hfile
    · refine h'.free place hplace bytes ?_
      rw [h.entry? place, if_neg hbefore]
      exact hfile
  · intro place
    rw [h'.entry? place]
    split
    · rfl
    · rename_i hplace
      rw [h.entry? place, if_neg fun hbefore => hplace (honWay place hbefore)]
  · intro places _ hplaces
    refine (h.outside places fun place hplace => hplaces place (honWay place hplace)).trans ?_
    refine h'.outside places fun place hplace hnone => hplaces place hplace ?_
    rw [h.entry? place] at hnone
    split at hnone
    · cases hnone
    · exact hnone

theorem Closed.startAt (h : tree.Closed) (root : Text) :
    tree.entry? (tree.startAt root) = some .directory := by
  unfold Tree.startAt
  split
  · exact h.here
  · rfl

/-- Where a name leads down, its directory is above. -/
theorem walk_down (hproper : name ≠ [] ∧ name ≠ ['.']) (hdots : name ≠ ['.', '.']) :
    walk start (names ++ [name]) = walk start names ++ [name] := by
  rw [walk_concat]
  simp [stepTo, hproper, hdots]

/-- A directory on a way without files. -/
theorem directory_of_free (hfree : ∀ place, OnWay start names place →
    ∀ bytes, tree.entry? place ≠ some (.file bytes)) (hplace : OnWay start names place)
    (hthere : (tree.entry? place).isSome) : tree.entry? place = some .directory := by
  obtain ⟨entry, hentry⟩ := Option.isSome_iff_exists.mp hthere
  cases entry with
  | directory => exact hentry
  | file bytes => exact absurd hentry (hfree place hplace bytes)

/-- Names on whose way there are no files lead to a directory, if they lead anywhere. -/
theorem directory_of_follow (hclosed : tree.Closed)
    (hfree : ∀ place, OnWay (tree.startAt root) names place →
      ∀ bytes, tree.entry? place ≠ some (.file bytes))
    (h : tree.follow (tree.startAt root) names = .ok target) :
    tree.entry? target = some .directory := by
  have hthere := follow_isSome (by rw [hclosed.startAt]; rfl) hclosed h
  refine directory_of_free hfree ?_ hthere
  rw [follow_eq_walk h]
  exact onWay_end _ _

/-- A directory that is put behind directories is made. -/
theorem made_put (hclosed : tree.Closed) (hname : IsName name) (hnull : '\x00' ∉ name)
    (hway : ∀ place, OnWay start names place → tree.entry? place = some .directory)
    (hnone : tree.entry? (walk start names ++ [name]) = none) :
    Made tree start (names ++ [name]) (tree.put (walk start names ++ [name]) .directory) := by
  have hend : walk start (names ++ [name]) = walk start names ++ [name] :=
    walk_down ⟨hname.ne_nil, hname.ne_dot⟩ hname.ne_dots
  refine ⟨?_, ?_, ?_, ?_⟩
  · intro place hplace bytes
    rcases onWay_concat_iff.mp hplace with hplace | rfl
    · simp [hway place hplace]
    · simp [hend, hnone]
  · intro place
    rw [entry?_put (by simp)]
    simp only [onWay_concat_iff, hend]
    by_cases hplace : place = walk start names ++ [name]
    · rw [if_pos hplace, if_pos (.inr hplace)]
    · rw [if_neg hplace]
      -- The place itself is new; those on the way to it were directories already.
      by_cases honWay : OnWay start names place
      · rw [if_pos (.inl honWay), hway place honWay]
      · rw [if_neg (not_or.mpr ⟨honWay, hplace⟩)]
  · exact hclosed.put hname hnull (hway _ (onWay_end start names)) fun _ => rfl
  · intro places _ hplaces
    refine sameOutside_put (hplaces _ ?_ hnone) _
    rw [← hend]
    exact onWay_end _ _

section

variable (hclosed : tree.Closed) (hroot : root = [] ∨ IsRoot root)
include hclosed hroot

section

variable (hsteps : ∀ name ∈ reversed, IsStep name) (hnull : ∀ name ∈ reversed, '\x00' ∉ name)
include hsteps hnull

/-- What can be accepted as a directory has directories on its way. -/
theorem made_of_acceptDirectory {fault : Fault}
    (h : tree.acceptDirectory ⟨root, reversed⟩ fault = .ok ()) :
    Made tree (tree.startAt root) reversed.reverse tree := by
  unfold acceptDirectory isDirectory find? at h
  rw [locate_toPath hclosed hroot hsteps hnull] at h
  cases hfollow : tree.follow (tree.startAt root) reversed.reverse with
  | error fault => simp [hfollow] at h
  | ok target =>
    have htarget : tree.entry? target = some .directory := by
      by_contra hother
      simp [hfollow, hother] at h
    exact made_self hclosed fun place hplace => directory_of_onWay hfollow htarget hplace

theorem acceptDirectory_of_follow (fault : Fault)
    (hfollow : tree.follow (tree.startAt root) reversed.reverse = .ok target)
    (htarget : tree.entry? target = some .directory) :
    tree.acceptDirectory ⟨root, reversed⟩ fault = .ok () := by
  unfold acceptDirectory isDirectory find?
  rw [locate_toPath hclosed hroot hsteps hnull]
  simp [hfollow, htarget]

end

variable {above : List Text} (hsteps : ∀ other ∈ name :: above, IsStep other)
  (hnull : ∀ other ∈ name :: above, '\x00' ∉ other)
include hsteps hnull

theorem newPlace_iff {new : Place} :
    tree.newPlace ⟨root, name :: above⟩ = .ok new ↔
      name ≠ ['.', '.'] ∧ ∃ place, tree.follow (tree.startAt root) above.reverse = .ok place ∧
        tree.entry? place = some .directory ∧ tree.entry? (place ++ [name]) = none ∧
        new = place ++ [name] := by
  rw [newPlace_cons_iff, locate_toPath hclosed hroot (List.forall_mem_cons.mp hsteps).2
    (List.forall_mem_cons.mp hnull).2]

theorem made_of_makeDirectory (h : tree.makeDirectory ⟨root, name :: above⟩ = .ok left) :
    Made tree (tree.startAt root) (above.reverse ++ [name]) left := by
  have hname := (List.forall_mem_cons.mp hsteps).1
  have hno := (List.forall_mem_cons.mp hnull).1
  obtain ⟨new, hnew, rfl⟩ := map_eq_ok_iff.mp h
  obtain ⟨hdots, place, hfollow, hplace, hnone, rfl⟩ :=
    (newPlace_iff hclosed hroot hsteps hnull).mp hnew
  obtain rfl := follow_eq_walk hfollow
  exact made_put hclosed ⟨hname, hdots⟩ hno
    (fun other hother => directory_of_onWay hfollow hplace hother) hnone

/-- A directory cannot be made where there is one, which is accepted then. -/
theorem makeDirectory_taken
    (hfollow : tree.follow (tree.startAt root) (above.reverse ++ [name]) = .ok target)
    (htarget : tree.entry? target = some .directory) :
    tree.makeDirectory ⟨root, name :: above⟩ = .error .taken ∧
      tree.acceptDirectory ⟨root, name :: above⟩ .taken = .ok () := by
  obtain ⟨hname, habove⟩ := List.forall_mem_cons.mp hsteps
  have hlocate := locate_toPath hclosed hroot hsteps hnull
  have hlocateAbove := locate_toPath hclosed hroot habove (List.forall_mem_cons.mp hnull).2
  rw [← List.reverse_cons] at hfollow
  refine ⟨?_, acceptDirectory_of_follow hclosed hroot hsteps hnull .taken hfollow htarget⟩
  refine map_eq_error_iff.mpr ?_
  unfold newPlace
  by_cases hdots : name = ['.', '.']
  · subst hdots
    simp only [if_true, hlocate, hfollow]
  · rw [List.reverse_cons, follow_append] at hfollow
    obtain ⟨place, hplace, hlast⟩ := bind_eq_ok_iff.mp hfollow
    obtain ⟨rfl, hdirectory, -⟩ := (follow_down_iff ⟨hname.ne_nil, hname.ne_dot⟩ hdots).mp hlast
    simp [hdots, hlocateAbove, hplace, hdirectory, htarget]

/-- It cannot be made either where the directory above is missing. -/
theorem makeDirectory_missing
    (h : tree.follow (tree.startAt root) above.reverse = .error .missing) :
    tree.makeDirectory ⟨root, name :: above⟩ = .error .missing := by
  have hlocate := locate_toPath hclosed hroot hsteps hnull
  have hlocateAbove := locate_toPath hclosed hroot (List.forall_mem_cons.mp hsteps).2
    (List.forall_mem_cons.mp hnull).2
  rw [List.reverse_cons, follow_append, h] at hlocate
  rw [h] at hlocateAbove
  refine map_eq_error_iff.mpr ?_
  unfold newPlace
  simp only [hlocateAbove, hlocate]
  split <;> rfl

/-- If no file is on its way, a directory can be made, or is there already, or something above it is
missing. -/
theorem makeDirectory_of_free
    (hfree : ∀ place, OnWay (tree.startAt root) (above.reverse ++ [name]) place →
    ∀ bytes, tree.entry? place ≠ some (.file bytes)) :
    (∃ made, tree.makeDirectory ⟨root, name :: above⟩ = .ok made) ∨
      (tree.makeDirectory ⟨root, name :: above⟩ = .error .taken ∧
        tree.acceptDirectory ⟨root, name :: above⟩ .taken = .ok ()) ∨
      (tree.makeDirectory ⟨root, name :: above⟩ = .error .missing ∧
        tree.follow (tree.startAt root) above.reverse = .error .missing) := by
  have hname := (List.forall_mem_cons.mp hsteps).1
  have hfreeAbove (place : Place) (hplace : OnWay (tree.startAt root) above.reverse place) :=
    hfree place (onWay_concat_iff.mpr (.inl hplace))
  cases hfollow : tree.follow (tree.startAt root) above.reverse with
  | error fault =>
    obtain rfl := eq_missing_of_follow hfreeAbove hfollow
    exact .inr (.inr ⟨makeDirectory_missing hclosed hroot hsteps hnull hfollow, rfl⟩)
  | ok place =>
    have hplace := directory_of_follow hclosed hfreeAbove hfollow
    cases hend : tree.follow (tree.startAt root) (above.reverse ++ [name]) with
    | ok target =>
      have htarget := directory_of_follow hclosed hfree hend
      exact .inr (.inl (makeDirectory_taken hclosed hroot hsteps hnull hend htarget))
    | error fault =>
      -- The name leads nowhere, although there is a directory above.
      rw [follow_append, hfollow] at hend
      replace hend : tree.follow place [name] = .error fault := hend
      have hdots : name ≠ ['.', '.'] := by
        rintro rfl
        simp [follow, hplace] at hend
      have hnone : tree.entry? (place ++ [name]) = none := by
        rw [← Option.not_isSome_iff_eq_none]
        intro hthere
        have hdown := (follow_down_iff ⟨hname.ne_nil, hname.ne_dot⟩ hdots).mpr ⟨rfl, hplace, hthere⟩
        cases hend.symm.trans hdown
      have hnew := (newPlace_iff hclosed hroot hsteps hnull).mpr
        ⟨hdots, place, hfollow, hplace, hnone, rfl⟩
      exact .inl ⟨_, map_eq_ok_iff.mpr ⟨_, hnew, rfl⟩⟩

end

theorem made_of_makeDirectories (hclosed : tree.Closed) (hroot : root = [] ∨ IsRoot root)
    (hsteps : ∀ name ∈ reversed, IsStep name) (hnull : ∀ name ∈ reversed, '\x00' ∉ name)
    (h : tree.makeDirectories root reversed = (left, .ok ())) :
    Made tree (tree.startAt root) reversed.reverse left := by
  induction reversed generalizing left with
  | nil =>
    rw [makeDirectories] at h
    split at h
    · rename_i hmade
      cases hmade
    · obtain ⟨rfl, haccept⟩ := Prod.mk.inj h
      exact made_of_acceptDirectory hclosed hroot hsteps hnull haccept
  | cons name above ih =>
    have habove := (List.forall_mem_cons.mp hsteps).2
    have hnoAbove := (List.forall_mem_cons.mp hnull).2
    rw [List.reverse_cons]
    rw [makeDirectories] at h
    split at h
    · rename_i hmade
      cases h
      exact made_of_makeDirectory hclosed hroot hsteps hnull hmade
    · split at h
      · cases h
      · rename_i made hdone
        -- The directories above have been made: now the last one is made, or is there already.
        have hfirst := ih habove hnoAbove hdone
        refine hfirst.trans (List.prefix_append _ _) ?_
        rw [← hfirst.startAt root]
        split at h
        · rename_i hmade
          cases h
          exact made_of_makeDirectory hfirst.closed hroot hsteps hnull hmade
        · obtain ⟨rfl, haccept⟩ := Prod.mk.inj h
          have hself := made_of_acceptDirectory hfirst.closed hroot hsteps hnull haccept
          rwa [List.reverse_cons] at hself
    · obtain ⟨rfl, haccept⟩ := Prod.mk.inj h
      have hself := made_of_acceptDirectory hclosed hroot hsteps hnull haccept
      rwa [List.reverse_cons] at hself

/-- If no file is on the way, the directories on it can be made. -/
theorem exists_made (hclosed : tree.Closed) (hroot : root = [] ∨ IsRoot root)
    (hsteps : ∀ name ∈ reversed, IsStep name) (hnull : ∀ name ∈ reversed, '\x00' ∉ name)
    (hfree : ∀ place, OnWay (tree.startAt root) reversed.reverse place →
      ∀ bytes, tree.entry? place ≠ some (.file bytes)) :
    ∃ left, tree.makeDirectories root reversed = (left, .ok ()) := by
  induction reversed with
  | nil =>
    refine ⟨tree, ?_⟩
    have haccept :=
      acceptDirectory_of_follow hclosed hroot hsteps hnull .taken rfl (hclosed.startAt root)
    rw [makeDirectories, makeDirectory, newPlace, Except.map]
    simp only [haccept]
  | cons name above ih =>
    have habove := (List.forall_mem_cons.mp hsteps).2
    have hnoAbove := (List.forall_mem_cons.mp hnull).2
    rw [List.reverse_cons] at hfree
    obtain ⟨made, hdone⟩ := ih habove hnoAbove fun place hplace =>
      hfree place (onWay_concat_iff.mpr (.inl hplace))
    have hfirst := made_of_makeDirectories hclosed hroot habove hnoAbove hdone
    have hstart := hfirst.startAt root
    rw [makeDirectories]
    rcases makeDirectory_of_free hclosed hroot hsteps hnull hfree with
      ⟨left, hmade⟩ | ⟨htaken, haccept⟩ | ⟨hmissing, -⟩
    · exact ⟨left, by rw [hmade]⟩
    · exact ⟨tree, by simp only [htaken, haccept]⟩
    · rw [hmissing, hdone]
      -- The directories above have been made, so that now none is missing.
      have hfree' : ∀ place, OnWay (made.startAt root) (above.reverse ++ [name]) place →
          ∀ bytes, made.entry? place ≠ some (.file bytes) := by
        rw [hstart]
        exact fun place hplace bytes => hfirst.ne_file (hfree place hplace bytes)
      rcases makeDirectory_of_free hfirst.closed hroot hsteps hnull hfree' with
        ⟨left, hmade⟩ | ⟨htaken, haccept⟩ | ⟨-, hfollow⟩
      · exact ⟨left, by simp only [hmade]⟩
      · exact ⟨made, by simp only [htaken, haccept]⟩
      · rw [hstart, follow_of_onWay fun place hplace => hfirst.directory hplace] at hfollow
        cases hfollow

end Tree

end Splice
