import Splice.Proofs.Tree.Paths

/-!
# The files of a tree

Which bytes stand at which places. Making directories does not change that, and writing a text
changes one place at most.

* `Tree.bytes?` — the bytes of the file at a place;
* `Tree.SameFiles`, `Tree.Puts` — trees with the same files, or with other bytes at one place only;
* `File.target?` — the place at which a path is written; and
* `File.Written` — what writing leaves, and its outcome.
-/

namespace Splice

namespace Tree

/-- The bytes of the file at a place, if there is one. -/
def bytes? (tree : Tree) (place : Place) : Option Bytes :=
  match tree.entry? place with
  | some (.file bytes) => some bytes
  | _ => none

/-- The new tree has the files of the old one, with the same bytes. Directories may differ. -/
def SameFiles (old new : Tree) : Prop := ∀ place, new.bytes? place = old.bytes? place

/-- The new tree has the files of the old one and, at a place, a file with these bytes. -/
def Puts (old : Tree) (place : Place) (bytes : Bytes) (new : Tree) : Prop :=
  ∀ other, new.bytes? other = if other = place then some bytes else old.bytes? other

variable {tree made left : Tree} {place : Place}

theorem SameFiles.refl (tree : Tree) : SameFiles tree tree := fun _ => rfl

theorem SameFiles.trans (h : SameFiles tree made) (h' : SameFiles made left) :
    SameFiles tree left :=
  fun place => (h' place).trans (h place)

theorem SameFiles.puts {bytes : Bytes} (h : SameFiles tree made) (h' : Puts made place bytes left) :
    Puts tree place bytes left := by
  intro other
  rw [h' other, h other]

/-- Putting bytes at a place makes no difference just if they are there already. -/
theorem Puts.sameFiles_iff {bytes : Bytes} (h : Puts tree place bytes left) :
    SameFiles tree left ↔ tree.bytes? place = some bytes := by
  constructor
  · intro hsame
    have hplace := h place
    rw [if_pos rfl] at hplace
    exact (hsame place).symm.trans hplace
  · intro hplace other
    rw [h other]
    split
    · rename_i heq
      rw [heq, hplace]
    · rfl

/-! ### Putting entries -/

theorem lookup_cons (p other : Place) (entry : Entry) (entries : List (Place × Entry)) :
    ((p, entry) :: entries).lookup other = if other =
      p then some entry else entries.lookup other := by
  rw [List.lookup_cons]
  by_cases h : other = p
  · rw [if_pos h, beq_iff_eq.mpr h]
  · rw [if_neg h, beq_false_of_ne h]

theorem lookup_putEntry (place other : Place) (entry : Entry) (entries : List (Place × Entry)) :
    (putEntry place entry entries).lookup other =
      if other = place then some entry else entries.lookup other := by
  induction entries with
  | nil => rw [putEntry, lookup_cons]
  | cons first entries ih =>
    obtain ⟨p, old⟩ := first
    rw [putEntry, lookup_cons]
    by_cases hp : p = place
    · rw [if_pos hp, lookup_cons, hp]
      split <;> rfl
    · rw [if_neg hp, lookup_cons, ih]
      by_cases h : other = p
      · have hother : other ≠ place := by
          rw [h]
          exact hp
        rw [if_pos h, if_neg hother, if_pos h]
      · rw [if_neg h, if_neg h]

theorem entry?_put (hplace : place ≠ []) (entry : Entry) (other : Place) :
    Tree.entry? (tree.put place entry) other =
      if other = place then some entry else tree.entry? other := by
  rw [put, if_neg hplace, entry?, entry?, lookup_putEntry]
  by_cases hroot : other = []
  · have hother : other ≠ place := by
      rw [hroot]
      exact hplace.symm
    rw [if_pos hroot, if_neg hother, if_pos hroot]
  · rw [if_neg hroot, if_neg hroot]

theorem puts_file (hplace : place ≠ []) (bytes : Bytes) :
    Puts tree place bytes (tree.put place (.file bytes)) := by
  intro other
  rw [bytes?, entry?_put hplace]
  by_cases h : other = place
  · rw [if_pos h, if_pos h]
  · rw [if_neg h, if_neg h]
    rfl

theorem sameFiles_directory (hplace : place ≠ []) (hfree : tree.entry? place = none) :
    SameFiles tree (tree.put place .directory) := by
  intro other
  rw [bytes?, bytes?, entry?_put hplace]
  by_cases h : other = place
  · rw [if_pos h, h, hfree]
  · rw [if_neg h]

/-! ### Making directories -/

/-- A name makes something new where there is a directory that does not hold it yet. -/
theorem newPlace_cons_iff {root name : Text} {above : List Text} {new : Place} :
    tree.newPlace ⟨root, name :: above⟩ = .ok new ↔
      name ≠ ['.', '.'] ∧ ∃ place, tree.locate (Route.toPath ⟨root, above⟩) = .ok place ∧
        tree.entry? place = some .directory ∧ tree.entry? (place ++ [name]) = none ∧
        new = place ++ [name] := by
  unfold newPlace
  constructor
  · intro h
    dsimp only at h
    split at h
    · split at h <;> cases h
    · rename_i hdots
      refine ⟨hdots, ?_⟩
      split at h
      · cases h
      · rename_i place hlocate
        split at h
        · rename_i hplace
          split at h
          · cases h
          · rename_i hfree
            cases h
            exact ⟨place, hlocate, hplace, by simpa using hfree, rfl⟩
        · cases h
        · cases h
  · rintro ⟨hdots, place, hlocate, hplace, hfree, rfl⟩
    simp [hdots, hlocate, hplace, hfree]

/-- Something new is made at a place that is free. -/
theorem newPlace_free {route : Route} (h : tree.newPlace route = .ok place) :
    place ≠ [] ∧ tree.entry? place = none := by
  obtain ⟨root, reversed⟩ := route
  cases reversed with
  | nil => cases h
  | cons name above =>
    obtain ⟨-, above, -, -, hfree, rfl⟩ := newPlace_cons_iff.mp h
    exact ⟨by simp, hfree⟩

theorem makeDirectory_sameFiles {route : Route} (h : tree.makeDirectory route = .ok made) :
    SameFiles tree made := by
  obtain ⟨place, hplace, rfl⟩ := map_eq_ok_iff.mp h
  obtain ⟨hroot, hfree⟩ := newPlace_free hplace
  exact sameFiles_directory hroot hfree

/-- Making directories leaves the files as they are, also if it stops half-way. -/
theorem makeDirectories_sameFiles (tree : Tree) (root : Text) (reversed : List Text) :
    SameFiles tree (tree.makeDirectories root reversed).1 := by
  induction reversed generalizing tree with
  | nil =>
    rw [makeDirectories]
    split
    · rename_i hmade
      exact makeDirectory_sameFiles hmade
    · exact .refl tree
  | cons name above ih =>
    -- Where directories are missing, those above are made first, and may be all that is made.
    have habove := ih tree
    rw [makeDirectories]
    split
    · rename_i hmade
      exact makeDirectory_sameFiles hmade
    · split
      · rename_i hfailed
        rwa [hfailed] at habove
      · rename_i hdone
        rw [hdone] at habove
        split
        · rename_i hmade
          exact habove.trans (makeDirectory_sameFiles hmade)
        · exact habove
    · exact .refl tree

/-- A file is written neither to the root nor to the place of a directory. -/
theorem placeForWriting_ne_nil {route : Route} (h : tree.placeForWriting route = .ok place) :
    place ≠ [] := by
  unfold placeForWriting at h
  split at h
  · split at h
    · cases h
    · rename_i hentry
      cases h
      rintro rfl
      exact hentry rfl
  · exact (newPlace_free h).1
  · cases h

end Tree

/-! ### Writing -/

namespace File

/-- The place at which a path is written, once the directories on the way to it have been made. -/
def target? (tree : Tree) (path : Text) : Option Place :=
  let route := Tree.Route.ofPath path
  match tree.makeDirectories route.root route.up.reversed with
  | (_, .error _) => none
  | (tree, .ok ()) => (tree.placeForWriting route).toOption

/-- The tree that is left when a text is written, and the outcome. -/
inductive Written [Codecs] (tree : Tree) (path text encoding : Text) (left : Tree) :
    Except Error Unit → Prop
  /-- There is no place to write to. -/
  | blocked {e : Error} : (∀ error, e ≠ .encoding error) → Tree.SameFiles tree left →
      Written tree path text encoding left (.error e)
  /-- The bytes of the text have been written. -/
  | done {place : Place} {bytes : Bytes} : target? tree path = some place →
      encode encoding text = .ok bytes → Tree.Puts tree place bytes left →
      Written tree path text encoding left (.ok ())
  /-- The text has no bytes, and nothing has been written. -/
  | emptied {place : Place} {e : Error} : target? tree path = some place →
      encode encoding text = .error e → Tree.Puts tree place [] left →
      Written tree path text encoding left (.error e)

theorem written_write [Codecs] (tree : Tree) (path text encoding : Text) :
    Written tree path text encoding (write tree path text encoding).1
      (write tree path text encoding).2 := by
  let route := Tree.Route.ofPath path
  have hmade := Tree.makeDirectories_sameFiles tree route.root route.up.reversed
  have htarget : target? tree path =
    match tree.makeDirectories route.root route.up.reversed with
    | (_, .error _) => none
    | (tree, .ok ()) => (tree.placeForWriting route).toOption := rfl
  unfold write
  simp only
  split
  · exact .blocked (by simp) (.refl tree)
  · split
    · rename_i hfailed
      rw [hfailed] at hmade
      exact .blocked (by simp) hmade
    · rename_i made hdone
      rw [hdone] at hmade htarget
      split
      · rename_i e hname
        obtain rfl := checkName_error hname
        exact .blocked (by simp) hmade
      · split
        · exact .blocked (by simp) hmade
        · split
          · exact .blocked (by simp) hmade
          · rename_i place hplace
            have hroot := Tree.placeForWriting_ne_nil hplace
            have hplace' : made.placeForWriting route = .ok place := hplace
            simp only [hplace'] at htarget
            split
            · rename_i bytes hbytes
              exact .done htarget hbytes (hmade.puts (Tree.puts_file hroot bytes))
            · rename_i e he
              -- The file has been opened for writing before the text is encoded.
              exact .emptied htarget he (hmade.puts (Tree.puts_file hroot []))

end File

end Splice
