import Splice.Proofs.Tree.Writing

/-!
# Several writes

Texts that are written to different places leave the same in every order: the files, the directories
that have been made for them, and what was there before.

* `Tree.After` — what is left when some files have been written;
* `Tree.After.cons`, `Tree.After.of_subset` — one more file, and another order;
* `Tree.After.entry?_eq` — nothing else is left to choose; and
* `Tree.After.writable` — what has been written last could have been written before.
-/

namespace Splice.Tree

variable {tree next left other : Tree} {path : Text} {bytes : Bytes} {place : Place}
  {writes more : List (Text × Bytes)}

theorem onWayTo_of_cwd (h : left.cwd = tree.cwd) :
    left.OnWayTo path place ↔ tree.OnWayTo path place := by
  rw [OnWayTo, OnWayTo, startOf_of_cwd h]

/-- What is left of a tree when bytes have been written to some paths. -/
structure After (tree : Tree) (writes : List (Text × Bytes)) (left : Tree) : Prop where
  cwd : left.cwd = tree.cwd
  no_null : ∀ item ∈ writes, '\x00' ∉ Path.plain item.1
  file : ∀ item ∈ writes, left.entry? (tree.placeOf item.1) = some (.file item.2)
  directory : ∀ item ∈ writes, ∀ place, tree.OnWayTo item.1 place →
      left.entry? place = some .directory
  rest : ∀ place, (∀ item ∈ writes, place ≠ tree.placeOf item.1 ∧ ¬ tree.OnWayTo item.1 place) →
    left.entry? place = tree.entry? place

theorem After.nil (tree : Tree) : After tree [] tree :=
  ⟨rfl, fun _ h => absurd h List.not_mem_nil, fun _ h => absurd h List.not_mem_nil,
    fun _ h => absurd h List.not_mem_nil, fun _ _ => rfl⟩

/-- The order of the writes does not show. -/
theorem After.of_subset (h : After tree writes left) (hmore : more ⊆ writes)
    (hwrites : writes ⊆ more) :
    After tree more left where
  cwd := h.cwd
  no_null item hitem := h.no_null item (hmore hitem)
  file item hitem := h.file item (hmore hitem)
  directory item hitem := h.directory item (hmore hitem)
  rest place hplace := h.rest place fun item hitem => hplace item (hwrites hitem)

/-- One more file, at another place. -/
theorem After.cons (h : After tree writes next) (hwrote : next.Wrote path bytes left)
    (hne : ∀ item ∈ writes, tree.placeOf item.1 ≠ tree.placeOf path) :
    After tree ((path, bytes) :: writes) left := by
  have hplaceOf : next.placeOf path = tree.placeOf path := placeOf_of_cwd h.cwd path
  have honWay (place : Place) : next.OnWayTo path place ↔ tree.OnWayTo path place :=
    onWayTo_of_cwd h.cwd
  have hgrows := hwrote.grows
  refine ⟨hwrote.cwd.trans h.cwd, ?_, ?_, ?_, ?_⟩
  · intro item hitem
    rcases List.mem_cons.mp hitem with heq | hitem
    · rw [heq]
      exact hwrote.writable.no_null
    · exact h.no_null item hitem
  · intro item hitem
    rcases List.mem_cons.mp hitem with heq | hitem
    · rw [heq, hwrote.entry?, if_pos hplaceOf.symm]
    · have hfile := h.file item hitem
      -- An earlier file is not the new one, and it cannot be on the way to it.
      rw [hwrote.entry?, if_neg (by rw [hplaceOf]; exact hne item hitem), if_neg, hfile]
      exact fun hway => hwrote.writable.free _ hway _ hfile
  · intro item hitem place hplace
    rcases List.mem_cons.mp hitem with heq | hitem
    · rw [heq, ← honWay] at hplace
      have hahead : place ≠ next.placeOf path := by
        intro heq
        rw [heq] at hplace
        exact hwrote.writable.ahead hplace
      rw [hwrote.entry?, if_neg hahead, if_pos hplace]
    · exact hgrows.directory place (h.directory item hitem place hplace)
  · intro place hplace
    obtain ⟨⟨hother, hway⟩, hrest⟩ := List.forall_mem_cons.mp hplace
    rw [hwrote.entry?, if_neg (by rwa [hplaceOf]), if_neg (by rwa [honWay]), h.rest place hrest]

/-- Nothing else is left to choose. -/
theorem After.entry?_eq (h : After tree writes left) (h' : After tree writes other)
    (place : Place) :
    other.entry? place = left.entry? place := by
  by_cases hfile : ∃ item ∈ writes, place = tree.placeOf item.1
  · obtain ⟨item, hitem, heq⟩ := hfile
    rw [heq, h.file item hitem, h'.file item hitem]
  · by_cases hway : ∃ item ∈ writes, tree.OnWayTo item.1 place
    · obtain ⟨item, hitem, hplace⟩ := hway
      rw [h.directory item hitem place hplace, h'.directory item hitem place hplace]
    · have hrest : ∀ item ∈ writes, place ≠ tree.placeOf item.1 ∧ ¬ tree.OnWayTo item.1 place :=
        fun item hitem =>
          ⟨fun heq => hfile ⟨item, hitem, heq⟩, fun hplace => hway ⟨item, hitem, hplace⟩⟩
      rw [h.rest place hrest, h'.rest place hrest]

/-- A tree grows when more is written. -/
theorem After.grows (h : After tree writes next) (h' : After tree more left) (hmore : writes ⊆ more)
    (hgrows : tree.Grows left) : next.Grows left := by
  refine ⟨h'.cwd.trans h.cwd.symm, ?_, ?_⟩
  · intro place hplace
    -- A directory has been made on the way to a file, or was there before.
    by_cases hway : ∃ item ∈ writes, tree.OnWayTo item.1 place
    · obtain ⟨item, hitem, honWay⟩ := hway
      exact h'.directory item (hmore hitem) place honWay
    · refine hgrows.directory place ?_
      rw [← h.rest place fun item hitem => ⟨?_, fun honWay => hway ⟨item, hitem, honWay⟩⟩]
      · exact hplace
      · intro heq
        rw [heq, h.file item hitem] at hplace
        cases hplace
  · intro place bytes hplace
    -- A file has been written, or was there before.
    by_cases hfile : ∃ item ∈ writes, place = tree.placeOf item.1
    · obtain ⟨item, hitem, heq⟩ := hfile
      exact ⟨item.2, heq ▸ h'.file item (hmore hitem)⟩
    · refine hgrows.file place bytes ?_
      rw [← h.rest place fun item hitem => ⟨fun heq => hfile ⟨item, hitem, heq⟩, ?_⟩]
      · exact hplace
      · intro honWay
        rw [h.directory item hitem place honWay] at hplace
        cases hplace

/-- What has been written in a larger tree can be written. -/
theorem After.writable (h : After tree writes left) (hmem : (path, bytes) ∈ writes)
    (hgrows : next.Grows left) : next.Writable path := by
  have hcwd : next.cwd = tree.cwd := hgrows.cwd.symm.trans h.cwd
  have hfile := h.file _ hmem
  refine ⟨h.no_null _ hmem, ?_, ?_, ?_⟩
  · intro place hplace other hother
    obtain ⟨bytes', hleft⟩ := hgrows.file place other hother
    rw [h.directory _ hmem place ((onWayTo_of_cwd hcwd).mp hplace)] at hleft
    cases hleft
  · intro hplace
    rw [onWayTo_of_cwd hcwd, placeOf_of_cwd hcwd] at hplace
    rw [h.directory _ hmem _ hplace] at hfile
    cases hfile
  · intro hdirectory
    rw [placeOf_of_cwd hcwd] at hdirectory
    rw [hgrows.directory _ hdirectory] at hfile
    cases hfile

end Splice.Tree
