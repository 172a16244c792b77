import Splice.Proofs.Tree.Making

/-!
# Where texts are written

Writing makes the directories on the way to a path, and a file at its end. In a closed tree this
succeeds just if no file is on the way and no directory at the end, and then nothing else changes.

* `Tree.placeForWriting_eq` — the place that is written, once the directories are there;
* `Tree.Writable` — can a path be written? and
* `Tree.Wrote`, `File.wrote_of_write`, `File.exists_write` — what is left when a text is written,
  and when it is.
-/

namespace Splice

open Splice.Path (IsName IsStep IsRoot)

namespace Tree

variable {tree made left : Tree} {start place target : Place} {names : List Text} {name : Text}
  {root : Text} {reversed : List Text}

/-! ### The place that is written -/

/-- Only a name leads from directories to something that is none. -/
theorem isName_of_target (hclosed : tree.Closed)
    (hway : ∀ place, OnWay start names place → tree.entry? place = some .directory)
    (htarget : tree.entry? (walk start (names ++ [name])) ≠ some .directory) :
    (name ≠ [] ∧ name ≠ ['.']) ∧ name ≠ ['.', '.'] := by
  have hfront := hway _ (onWay_end start names)
  rw [walk_concat] at htarget
  refine ⟨not_or.mp fun hstays => htarget ?_, ?_⟩
  · have hstep : stepTo (walk start names) name = walk start names := if_pos hstays
    rw [hstep]
    exact hfront
  · rintro rfl
    exact htarget (hclosed.above hfront)

/-- Names with directories on the way lead to the file at their end. -/
theorem follow_of_file {bytes : Bytes} (hclosed : tree.Closed)
    (hway : ∀ place, OnWay start names.dropLast place → tree.entry? place = some .directory)
    (hfile : tree.entry? (walk start names) = some (.file bytes)) :
    tree.follow start names = .ok (walk start names) := by
  rcases names.eq_nil_or_concat' with rfl | ⟨front, name, rfl⟩
  · rfl
  · rw [List.dropLast_concat] at hway
    have htarget : tree.entry? (walk start (front ++ [name])) ≠ some .directory := by simp [hfile]
    obtain ⟨hproper, hdots⟩ := isName_of_target hclosed hway htarget
    have hdown : tree.follow (walk start front) [name] = .ok (walk start (front ++ [name])) := by
      refine (follow_down_iff hproper hdots).mpr ⟨walk_down hproper hdots, ?_, ?_⟩
      · exact hway _ (onWay_end start front)
      · rw [hfile]
        rfl
    rw [follow_append, follow_of_onWay hway]
    exact hdown

theorem onWay_of_dropLast
    (hway : ∀ place, OnWay start names.dropLast place → tree.entry? place = some .directory)
    (hend : tree.entry? (walk start names) = some .directory) :
    ∀ place, OnWay start names place → tree.entry? place = some .directory := by
  rcases names.eq_nil_or_concat' with rfl | ⟨front, name, rfl⟩
  · exact hway
  · rw [List.dropLast_concat] at hway
    intro place hplace
    rcases onWay_concat_iff.mp hplace with hplace | rfl
    · exact hway place hplace
    · exact hend

/-- Where the directories are there, a file is written unless there is a directory. -/
theorem placeForWriting_eq (hclosed : tree.Closed) (hroot : root = [] ∨ IsRoot root)
    (hsteps : ∀ name ∈ reversed, IsStep name) (hnull : ∀ name ∈ reversed, '\x00' ∉ name)
    (hway : ∀ place, OnWay (tree.startAt root) reversed.reverse.dropLast place →
      tree.entry? place = some .directory) :
    tree.placeForWriting ⟨root, reversed⟩ =
      if tree.entry? (walk (tree.startAt root) reversed.reverse) = some .directory then
        .error .isDirectory
      else .ok (walk (tree.startAt root) reversed.reverse) := by
  unfold placeForWriting
  rw [locate_toPath hclosed hroot hsteps hnull]
  cases hthere : tree.entry? (walk (tree.startAt root) reversed.reverse) with
  | some entry =>
    cases entry with
    | directory =>
      rw [follow_of_onWay (onWay_of_dropLast hway hthere)]
      simp [hthere]
    | file bytes =>
      rw [follow_of_file hclosed hway hthere]
      simp [hthere]
  | none =>
    -- Something new: the directory that will hold it is there.
    have htarget : tree.entry? (walk (tree.startAt root) reversed.reverse) ≠ some .directory := by
      simp [hthere]
    cases reversed with
    | nil => exact absurd (hclosed.startAt root) htarget
    | cons name above =>
      rw [List.reverse_cons] at hway hthere htarget ⊢
      rw [List.dropLast_concat] at hway
      obtain ⟨hproper, hdots⟩ := isName_of_target hclosed hway htarget
      rw [walk_down hproper hdots] at hthere ⊢
      have hfront := follow_of_onWay hway
      have hdirectory := hway _ (onWay_end (tree.startAt root) above.reverse)
      have hmissing :
          tree.follow (tree.startAt root) (above.reverse ++ [name]) = .error .missing := by
        rw [follow_append, hfront]
        show tree.follow (walk (tree.startAt root) above.reverse) [name] = .error .missing
        simp [follow, hdirectory, hproper, hdots, hthere]
      have habove := (List.forall_mem_cons.mp hsteps).2
      have hnoAbove := (List.forall_mem_cons.mp hnull).2
      have hlocate := (locate_toPath hclosed hroot habove hnoAbove).trans hfront
      rw [hmissing, if_neg (by simp)]
      exact newPlace_cons_iff.mpr ⟨hdots, _, hlocate, hdirectory, hthere, rfl⟩

variable {path : Text} {bytes : Bytes}

/-- The places of the directories on the way to a path. -/
def OnWayTo (tree : Tree) (path : Text) (place : Place) : Prop :=
  OnWay (tree.startOf path) (Path.names path).dropLast place

instance (tree : Tree) (path : Text) (place : Place) : Decidable (tree.OnWayTo path place) :=
  inferInstanceAs (Decidable (OnWay _ _ _))

/-- A text can be written there: no file is on the way, and no directory at the end, neither before
nor after the directories on the way have been made. -/
structure Writable (tree : Tree) (path : Text) : Prop where
  no_null : '\x00' ∉ Path.plain path
  free : ∀ place, tree.OnWayTo path place → ∀ bytes, tree.entry? place ≠ some (.file bytes)
  ahead : ¬ tree.OnWayTo path (tree.placeOf path)
  target : tree.entry? (tree.placeOf path) ≠ some .directory

/-- What is left when bytes have been written. -/
structure Wrote (tree : Tree) (path : Text) (bytes : Bytes) (left : Tree) : Prop where
  writable : tree.Writable path
  entry? : ∀ place, left.entry? place =
    if place = tree.placeOf path then some (.file bytes)
    else if tree.OnWayTo path place then some .directory
    else tree.entry? place
  closed : left.Closed
  outside : ∀ (places : Place → Prop) [DecidablePred places], places (tree.placeOf path) →
    (∀ place, tree.OnWayTo path place → tree.entry? place = none → places place) →
      SameOutside places tree left

theorem Wrote.cwd (h : Wrote tree path bytes left) : left.cwd = tree.cwd :=
  (h.outside (fun _ => True) trivial fun _ _ _ => trivial).1

theorem Wrote.grows (h : Wrote tree path bytes left) : tree.Grows left where
  cwd := h.cwd
  directory place hplace := by
    rw [h.entry? place]
    split
    · rename_i heq
      subst heq
      exact absurd hplace h.writable.target
    · split
      · rfl
      · exact hplace
  file place bytes' hplace := by
    rw [h.entry? place]
    split
    · exact ⟨bytes, rfl⟩
    · split
      · rename_i honWay
        exact absurd hplace (h.writable.free place honWay bytes')
      · exact ⟨bytes', hplace⟩

theorem root_eq_nil_or (path : Text) :
    Path.isAbsolute path = false ∧ Path.root path = [] ∨
      Path.isAbsolute path = true ∧ IsRoot (Path.root path) := by
  cases habsolute : Path.isAbsolute path with
  | true => exact .inr ⟨rfl, Path.isRoot_root habsolute⟩
  | false =>
    refine .inl ⟨rfl, ?_⟩
    cases path with
    | nil => rfl
    | cons c path =>
      have hc : c ≠ '/' := by
        rintro rfl
        cases habsolute
      unfold Path.root
      split <;> simp_all

theorem isRoot_or (path : Text) : Path.root path = [] ∨ IsRoot (Path.root path) :=
  (root_eq_nil_or path).imp And.right And.right

theorem startAt_root (tree : Tree) (path : Text) :
    tree.startAt (Path.root path) = tree.startOf path := by
  unfold startAt startOf
  rcases root_eq_nil_or path with ⟨habsolute, hroot⟩ | ⟨habsolute, hroot⟩
  · simp [habsolute, hroot]
  · rcases hroot with hroot | hroot <;> simp [habsolute, hroot]

/-- No null character is in a path just if none is in its names. -/
theorem null_not_mem_plain_iff {path : Text} :
    '\x00' ∉ Path.plain path ↔ ∀ name ∈ Path.names path, '\x00' ∉ name := by
  constructor
  · intro h name hname hnull
    refine h ?_
    have hmem : '\x00' ∈ Path.root path ++ Path.ofNames (Path.names path) :=
      List.mem_append_right _ ((Path.mem_ofNames_iff (by decide)).mpr ⟨name, hname, hnull⟩)
    unfold Path.plain
    simp only
    split
    · rename_i hempty
      rw [List.isEmpty_iff.mp hempty] at hmem
      cases hmem
    · exact hmem
  · intro h
    have hreversed : ∀ name ∈ (Path.names path).reverse, '\x00' ∉ name :=
      fun name hname => h name (List.mem_reverse.mp hname)
    have hno := null_not_mem_toPath (isRoot_or path) hreversed
    simpa [Route.toPath, Path.plain] using hno

theorem null_not_mem_of_plain {path : Text} (h : '\x00' ∉ Path.plain path) : '\x00' ∉ path := by
  intro hnull
  obtain ⟨name, hname, hmem⟩ := Text.exists_mem_pieces (by decide : '\x00' ≠ '/') hnull
  have hproper : name ≠ [] ∧ name ≠ ['.'] := by
    refine ⟨List.ne_nil_of_mem hmem, ?_⟩
    intro hdot
    subst hdot
    exact absurd hmem (by decide)
  exact null_not_mem_plain_iff.mp h name (List.mem_filter.mpr ⟨hname, decide_eq_true hproper⟩) hmem

theorem toPath_ofPath (path : Text) : Route.toPath (Route.ofPath path) = Path.plain path := by
  simp [Route.toPath, Route.ofPath, Path.plain]

/-- A path is followed name by name also without its single dots and repeated slashes. -/
theorem locate_plain (hclosed : tree.Closed) (hnull : '\x00' ∉ Path.plain path) :
    tree.locate (Path.plain path) = tree.follow (tree.startOf path) (Path.names path) := by
  have hno := null_not_mem_plain_iff.mp hnull
  rw [← toPath_ofPath, Route.ofPath, locate_toPath hclosed (isRoot_or path)
    (fun name hname => Path.isStep_of_mem_names (List.mem_reverse.mp hname))
    (fun name hname => hno name (List.mem_reverse.mp hname)), List.reverse_reverse, startAt_root]

/-- What is found under a path stands where its names lead. -/
theorem entry?_of_find?_plain (hclosed : tree.Closed) {entry : Entry}
    (h : tree.find? (Path.plain path) = some entry) :
    '\x00' ∉ Path.plain path ∧ tree.entry? (tree.placeOf path) = some entry := by
  have hnull : '\x00' ∉ Path.plain path := by
    intro hnull
    have hlocate : tree.locate (Path.plain path) = .error .missing := if_pos (.inr hnull)
    rw [find?, hlocate] at h
    cases h
  refine ⟨hnull, ?_⟩
  rw [find?, locate_plain hclosed hnull] at h
  split at h
  · rename_i place hfollow
    rwa [follow_eq_walk hfollow, ← placeOf_eq_walk_names] at h
  · cases h

/-- Where a path is written once the directories on its way have been made. -/
theorem Made.placeForWriting_iff (h : Made tree (tree.startOf path) (Path.names path).dropLast made)
    (hnull : '\x00' ∉ Path.plain path) :
    made.placeForWriting (Route.ofPath path) = .ok place ↔
      place = tree.placeOf path ∧ made.entry? place ≠ some .directory := by
  have hstart : made.startAt (Path.root path) = tree.startOf path := by
    rw [startAt_root, startOf, startOf, here, here, h.cwd]
  have hno := null_not_mem_plain_iff.mp hnull
  have hplace := placeForWriting_eq h.closed (isRoot_or path)
    (fun name hname => Path.isStep_of_mem_names (List.mem_reverse.mp hname))
    (fun name hname => hno name (List.mem_reverse.mp hname))
    (by rw [List.reverse_reverse, hstart]; exact fun place hplace => h.directory hplace)
  rw [hstart, List.reverse_reverse, ← placeOf_eq_walk_names] at hplace
  rw [Route.ofPath, hplace]
  split
  · rename_i hdirectory
    constructor
    · intro hfailed
      cases hfailed
    · intro h
      obtain ⟨heq, hnot⟩ := h
      rw [heq] at hnot
      exact absurd hdirectory hnot
  · rename_i hnot
    constructor
    · intro hdone
      cases hdone
      exact ⟨rfl, hnot⟩
    · intro h
      obtain ⟨heq, _⟩ := h
      rw [heq]

/-- Putting the file at the end of a way that has been made. -/
theorem Made.wrote (h : Made tree (tree.startOf path) (Path.names path).dropLast made)
    (hnull : '\x00' ∉ Path.plain path)
    (htarget : made.entry? (tree.placeOf path) ≠ some .directory) (bytes : Bytes) :
    Wrote tree path bytes (made.put (tree.placeOf path) (.file bytes)) := by
  have hahead : ¬ tree.OnWayTo path (tree.placeOf path) := fun hway => htarget (h.directory hway)
  have hsame : made.entry? (tree.placeOf path) = tree.entry? (tree.placeOf path) := by
    rw [h.entry? (tree.placeOf path)]
    exact if_neg hahead
  have hne : tree.placeOf path ≠ [] := by
    intro hroot
    rw [hroot] at htarget
    exact htarget rfl
  refine ⟨⟨hnull, h.free, hahead, hsame ▸ htarget⟩, ?_, ?_, ?_⟩
  · intro place
    rw [entry?_put hne, h.entry? place]
    rfl
  · -- The path has a last name, which is that of the file.
    rw [placeOf_eq_walk_names] at htarget ⊢
    have hno := null_not_mem_plain_iff.mp hnull
    have hsteps : ∀ name ∈ Path.names path, IsStep name :=
      fun _ hname => Path.isStep_of_mem_names hname
    rcases (Path.names path).eq_nil_or_concat' with hnil | ⟨front, name, hnames⟩
    · rw [hnil] at htarget h
      exact absurd (h.directory (onWay_start _ _)) htarget
    · rw [hnames] at htarget hno hsteps h ⊢
      rw [List.dropLast_concat] at h
      have hway : ∀ place, OnWay (tree.startOf path) front place →
          made.entry? place = some .directory :=
        fun place hplace => h.directory hplace
      obtain ⟨hproper, hdots⟩ := isName_of_target h.closed hway htarget
      rw [walk_down hproper hdots] at htarget ⊢
      refine h.closed.put ⟨hsteps name (by simp), hdots⟩ (hno name (by simp))
        (hway _ (onWay_end _ _)) fun hdirectory => absurd hdirectory htarget
  · intro places _ htargetPlace hplaces
    exact (h.outside places hplaces).trans (sameOutside_put htargetPlace _)

end Tree

/-! ### Writing -/

namespace File

open Splice.Tree

variable {tree left : Tree} {path text encoding : Text} {bytes : Bytes}

theorem reverse_above (path : Text) :
    ((Path.names path).reverse.drop 1).reverse = (Path.names path).dropLast := by
  rw [List.drop_one, List.tail_reverse, List.reverse_reverse]

theorem isStep_above (path : Text) : ∀ name ∈ (Path.names path).reverse.drop 1, IsStep name :=
  fun _ hname => Path.isStep_of_mem_names (List.mem_reverse.mp (List.mem_of_mem_drop hname))

theorem null_not_mem_above (h : '\x00' ∉ Path.plain path) :
    ∀ name ∈ (Path.names path).reverse.drop 1, '\x00' ∉ name :=
  fun name hname =>
    null_not_mem_plain_iff.mp h name (List.mem_reverse.mp (List.mem_of_mem_drop hname))

/-- What writing leaves if it succeeds. -/
theorem wrote_of_write [Codecs] (hclosed : tree.Closed)
    (h : write tree path text encoding = (left, .ok ())) :
    ∃ bytes, encode encoding text = .ok bytes ∧ Tree.Wrote tree path bytes left := by
  unfold write at h
  simp only at h
  split at h
  · cases h
  · split at h
    · cases h
    · rename_i made hdone
      split at h
      · cases h
      · split at h
        · cases h
        · rename_i hnull
          rw [toPath_ofPath] at hnull
          have hmade := made_of_makeDirectories hclosed (isRoot_or path) (isStep_above path)
            (null_not_mem_above hnull) hdone
          rw [reverse_above, startAt_root] at hmade
          split at h
          · cases h
          · rename_i place hplace
            obtain ⟨rfl, htarget⟩ := (hmade.placeForWriting_iff hnull).mp hplace
            split at h
            · rename_i bytes hbytes
              cases h
              exact ⟨bytes, hbytes, hmade.wrote hnull htarget bytes⟩
            · cases h

theorem checkName_of_write [Codecs] (h : write tree path text encoding = (left, .ok ())) :
    checkName encoding = .ok () := by
  unfold write at h
  simp only at h
  split at h
  · cases h
  · split at h
    · cases h
    · split at h
      · cases h
      · assumption

/-- Writing changes no file but the one to which the path leads, also if it fails. -/
theorem bytes?_write [Codecs] (hclosed : tree.Closed) {place : Place}
    (hplace : place ≠ tree.placeOf path) :
    (write tree path text encoding).1.bytes? place = tree.bytes? place := by
  have hdirectories :=
    makeDirectories_sameFiles tree (Route.ofPath path).root (Route.up (Route.ofPath path)).reversed
  unfold write
  simp only
  split
  · rfl
  · split
    · rename_i hfailed
      rw [hfailed] at hdirectories
      exact hdirectories place
    · rename_i made hdone
      rw [hdone] at hdirectories
      split
      · exact hdirectories place
      · split
        · exact hdirectories place
        · rename_i hnull
          rw [toPath_ofPath] at hnull
          have hmade := made_of_makeDirectories hclosed (isRoot_or path) (isStep_above path)
            (null_not_mem_above hnull) hdone
          rw [reverse_above, startAt_root] at hmade
          split
          · exact hdirectories place
          · rename_i target htarget
            have hroot := placeForWriting_ne_nil htarget
            obtain ⟨htarget, -⟩ := (hmade.placeForWriting_iff hnull).mp htarget
            -- Whether the text can be encoded or not, only the target is put in place.
            have hputs (bytes : Bytes) :
                (made.put target (.file bytes)).bytes? place = tree.bytes? place := by
              rw [puts_file hroot bytes place, if_neg (htarget ▸ hplace)]
              exact hdirectories place
            split
            · exact hputs _
            · exact hputs _

/-- A text that has bytes can be written where that is possible. -/
theorem exists_write [Codecs] (hclosed : tree.Closed) (hwritable : tree.Writable path)
    (hname : checkName encoding = .ok ()) (hbytes : encode encoding text = .ok bytes) :
    ∃ left, write tree path text encoding = (left, .ok ()) := by
  have hnull := hwritable.no_null
  have hnullAbove : '\x00' ∉ Route.toPath (Route.up (Route.ofPath path)) :=
    null_not_mem_toPath (isRoot_or path) (null_not_mem_above hnull)
  have hfree :
    ∀ place, OnWay (tree.startAt (Path.root path)) ((Path.names path).reverse.drop 1).reverse
      place → ∀ bytes, tree.entry? place ≠ some (.file bytes) := by
    rw [reverse_above, startAt_root]
    exact hwritable.free
  obtain ⟨made, hdone⟩ := exists_made hclosed (isRoot_or path) (isStep_above path)
    (null_not_mem_above hnull) hfree
  have hmade := made_of_makeDirectories hclosed (isRoot_or path) (isStep_above path)
    (null_not_mem_above hnull) hdone
  rw [reverse_above, startAt_root] at hmade
  -- The directories that are made do not reach the target itself.
  have htarget : made.entry? (tree.placeOf path) ≠ some .directory := by
    have hahead : ¬ OnWay (tree.startOf path) (Path.names path).dropLast (tree.placeOf path) :=
      hwritable.ahead
    rw [hmade.entry? (tree.placeOf path), if_neg hahead]
    exact hwritable.target
  have hplace := (hmade.placeForWriting_iff hnull).mpr ⟨rfl, htarget⟩
  refine ⟨made.put (tree.placeOf path) (.file bytes), ?_⟩
  have hdone' :
    tree.makeDirectories (Route.ofPath path).root (Route.up (Route.ofPath path)).reversed =
      (made, .ok ()) := hdone
  unfold write
  simp only [if_neg hnullAbove, hdone', hname, toPath_ofPath, if_neg hnull, hplace, hbytes]

end File

namespace Tree.Wrote

variable {tree left : Tree} {path : Text} {bytes : Bytes}

theorem file (h : tree.Wrote path bytes left) :
    left.entry? (tree.placeOf path) = some (.file bytes) := by
  rw [h.entry? (tree.placeOf path), if_pos rfl]

theorem directory {place : Place} (h : tree.Wrote path bytes left)
    (hplace : tree.OnWayTo path place) :
    left.entry? place = some .directory := by
  have hne : place ≠ tree.placeOf path := by
    intro heq
    rw [heq] at hplace
    exact h.writable.ahead hplace
  rw [h.entry? place, if_neg hne, if_pos hplace]

/-- The place that is written has a last name, with which the path ends too. -/
theorem exists_last (h : tree.Wrote path bytes left) :
    ∃ above name lead, tree.placeOf path = above ++ [name] ∧ Path.plain path = lead ++ name := by
  have hfile := h.file
  rw [Tree.placeOf_eq_walk_names] at hfile ⊢
  have hsteps : ∀ name ∈ Path.names path, IsStep name :=
    fun _ hname => Path.isStep_of_mem_names hname
  rcases (Path.names path).eq_nil_or_concat' with hnil | ⟨front, name, hnames⟩
  · have hstart := h.closed.startOf path
    rw [Tree.startOf_of_cwd h.cwd] at hstart
    rw [hnil, Tree.walk_nil, hstart] at hfile
    cases hfile
  · have hway (place : Place) (hplace : Tree.OnWay (tree.startOf path) front place) :
        left.entry? place = some .directory := by
      refine h.directory ?_
      unfold Tree.OnWayTo
      rwa [hnames, List.dropLast_concat]
    rw [hnames] at hfile ⊢
    -- The last name leads down to a file, so that it is a proper one.
    obtain ⟨hproper, hdots⟩ := Tree.isName_of_target h.closed hway (by rw [hfile]; exact nofun)
    have hlead : ∃ lead, Path.ofNames (front ++ [name]) = lead ++ name := by
      by_cases hfront : front = []
      · exact ⟨[], by rw [hfront]; exact Path.ofNames_singleton name⟩
      · refine ⟨Path.ofNames front ++ ['/'], ?_⟩
        rw [Path.ofNames_append hfront (List.cons_ne_nil _ _), Path.ofNames_singleton]
        simp
    obtain ⟨lead, hlead⟩ := hlead
    refine ⟨_, name, Path.root path ++ lead, Tree.walk_down hproper hdots, ?_⟩
    have hname : name ≠ [] := hproper.1
    simp [Path.plain, hnames, hlead, hname]

theorem locate_plain (h : tree.Wrote path bytes left) :
    left.locate (Path.plain path) = .ok (tree.placeOf path) := by
  have hfile := h.file
  rw [Tree.placeOf_eq_walk_names] at hfile ⊢
  rw [Tree.locate_plain h.closed h.writable.no_null, Tree.startOf_of_cwd h.cwd]
  exact Tree.follow_of_file h.closed (fun place hplace => h.directory hplace) hfile

/-- What has been written is found where it has been written. -/
theorem readBytes (h : tree.Wrote path bytes left) :
    File.readBytes left (Path.plain path) = .ok bytes := by
  rw [File.readBytes_eq_ok_iff, Tree.find?, h.locate_plain]
  exact h.file

end Tree.Wrote

end Splice
