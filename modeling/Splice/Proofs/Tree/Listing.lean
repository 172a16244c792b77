import Splice.Mustache.Load
import Splice.Proofs.Tree.Closed
import Splice.Proofs.Tree.Files

/-!
# Trees that list their directories in another order

Two trees may have the same at every place and still list the names in their directories in
different orders. Following a path does not list anything, so that it leads to the same in both.

* `Tree.Relists` — trees that differ in the orders of their directories only;
* `Tree.relists_of_perm` — for example those whose entries are given in another order;
* `Tree.Relists.children` — a directory has the same names in both; and
* `Tree.Relists.locate_eq`, `Tree.Relists.read_eq` — paths lead to the same, and files are read
  alike.
-/

namespace Splice.Tree

/-- The trees have the same at every place, whatever the orders are in which their directories list
it. -/
structure Relists (tree other : Tree) : Prop where
  closed : tree.Closed
  closed' : other.Closed
  cwd : other.cwd = tree.cwd
  entry?_eq : ∀ place, other.entry? place = tree.entry? place

variable {tree other : Tree}

theorem lookup_eq_some_iff_mem {entries : List (Place × Entry)} {place : Place} {entry : Entry}
    (hnodup : (entries.map Prod.fst).Nodup) :
    entries.lookup place = some entry ↔ (place, entry) ∈ entries := by
  induction entries with
  | nil => simp
  | cons item entries ih =>
    obtain ⟨first, entry'⟩ := item
    obtain ⟨hnew, hrest⟩ := List.nodup_cons.mp hnodup
    rw [lookup_cons, List.mem_cons, Prod.mk.injEq]
    by_cases hplace : place = first
    · subst hplace
      have hnot : (place, entry) ∉ entries := fun hmem => hnew (List.mem_map.mpr ⟨_, hmem, rfl⟩)
      simp [hnot, eq_comm]
    · simp [hplace, ih hrest]

theorem lookup_of_perm {entries entries' : List (Place × Entry)} (hperm : entries'.Perm entries)
    (hnodup : (entries.map Prod.fst).Nodup) (place : Place) :
    entries'.lookup place = entries.lookup place := by
  have hnodup' : (entries'.map Prod.fst).Nodup := (hperm.map _).nodup_iff.mpr hnodup
  refine Option.ext fun entry => ?_
  rw [lookup_eq_some_iff_mem hnodup', lookup_eq_some_iff_mem hnodup, hperm.mem_iff]

/-- The order in which the entries of a tree are given is that in which directories list them. -/
theorem relists_of_perm (hclosed : tree.Closed) (hcwd : other.cwd = tree.cwd)
    (hperm : other.entries.Perm tree.entries) : tree.Relists other := by
  have hentry (place : Place) : other.entry? place = tree.entry? place := by
    simp only [Tree.entry?, lookup_of_perm hperm hclosed.nodup]
  refine ⟨hclosed, ?_, hcwd, hentry⟩
  exact
    { absolute := by rw [hcwd]; exact hclosed.absolute
      isName := fun item hitem => hclosed.isName item (hperm.subset hitem)
      no_null := fun item hitem => hclosed.no_null item (hperm.subset hitem)
      nodup := (hperm.map _).nodup_iff.mpr hclosed.nodup
      parent := fun item hitem => by rw [hentry]; exact hclosed.parent item (hperm.subset hitem)
      here := by rw [hentry, Tree.here, hcwd]; exact hclosed.here }

namespace Relists

variable (h : tree.Relists other)
include h

/-- A directory has the same names. -/
theorem children (place : Place) : (other.children place).Perm (tree.children place) := by
  refine (List.perm_ext_iff_of_nodup (nodup_children h.closed'.nodup place)
    (nodup_children h.closed.nodup place)).mpr fun name => ?_
  rw [mem_children_iff, mem_children_iff, h.entry?_eq]

theorem follow_eq (place : Place) (names : List Text) :
    other.follow place names = tree.follow place names := by
  induction names generalizing place with
  | nil => rfl
  | cons name names ih => simp only [Tree.follow, h.entry?_eq, ih]

/-- A path leads to the same place. -/
theorem locate_eq (path : Text) : other.locate path = tree.locate path := by
  simp only [Tree.locate, Tree.startOf, Tree.here, h.cwd, h.follow_eq]

theorem find?_eq (path : Text) : other.find? path = tree.find? path := by
  simp only [Tree.find?, h.locate_eq, h.entry?_eq]

theorem has_eq (path : Text) : other.has path = tree.has path := by
  simp only [Tree.has, h.find?_eq]

theorem isFile_eq (path : Text) : other.isFile path = tree.isFile path := by
  simp only [Tree.isFile, h.find?_eq]

theorem isDirectory_eq (path : Text) : other.isDirectory path = tree.isDirectory path := by
  simp only [Tree.isDirectory, h.find?_eq]

theorem readBytes_eq (path : Text) : File.readBytes other path = File.readBytes tree path := by
  simp only [File.readBytes, h.locate_eq, h.entry?_eq]

/-- A file is read alike. -/
theorem read_eq [Codecs] (path encoding : Text) :
    File.read other path encoding = File.read tree path encoding := by
  simp only [File.read, h.readBytes_eq]

theorem loadEmbedded_eq (key : Text) :
    Mustache.loadEmbedded other key = Mustache.loadEmbedded tree key := by
  simp only [Mustache.loadEmbedded, File.readUtf8, h.has_eq, h.readBytes_eq]

end Relists

end Splice.Tree
