import Splice.Proofs.Encoding.Utf8
import Splice.Proofs.Path.Joining
import Splice.Proofs.Tree.Writing

/-!
# Reading what has been written

A text that has been written is read again under every path that leads to its file, and every other
file is read as before. Paths are taken as they are spelt: single dots, double dots and repeated
slashes may stand anywhere but at the end of the path that is written.

* `Tree.exists_pieces` — a path ends with its leaf;
* `Tree.Wrote.locate`, `Tree.Wrote.isDirectory_above` — the path that was written leads to its file,
  and what is above it are directories;
* `Tree.Wrote.find?_eq` — files at other places are found as before; and
* `File.read_after_write` — reading after writing.
-/

namespace Splice

open Splice.Path (IsName)

namespace Tree

variable {tree left : Tree} {start place : Place} {names : List Text} {path other : Text}
  {bytes : Bytes}

/-! ### Paths as they are spelt -/

/-- The last piece of a path is its leaf. -/
theorem exists_pieces (path : Text) :
    ∃ front, Text.pieces '/' path = front ++ [Path.leaf path] := by
  obtain ⟨front, hpath, hfront, -⟩ := Path.exists_front path
  have hleaf := Text.pieces_of_not_mem (Path.slash_not_mem_leaf path)
  rcases hfront with rfl | hlast
  · rw [List.nil_append] at hpath
    exact ⟨[], by rw [List.nil_append, ← hleaf, ← hpath]⟩
  · obtain ⟨before, rfl⟩ := List.getLast?_eq_some_iff.mp hlast
    refine ⟨Text.pieces '/' before, ?_⟩
    conv_lhs => rw [hpath, List.append_assoc, List.singleton_append, Text.pieces_append, hleaf]

/-- Names that stay are nowhere else on the way. -/
theorem OnWay.filter (h : OnWay start names place) :
    OnWay start (names.filter fun name => name ≠ [] ∧ name ≠ ['.']) place := by
  obtain ⟨front, hfront, rfl⟩ := h
  exact ⟨_, hfront.filter _, (walk_filter start front).symm⟩

/-! ### What has been written -/

variable (hwrote : tree.Wrote path bytes left) (hname : IsName (Path.leaf path))
include hwrote hname

/-- On the way that the path spells there are directories. -/
theorem Wrote.directory_of_pieces {front : List Text}
    (hpieces : Text.pieces '/' path = front ++ [Path.leaf path])
    (h : OnWay (tree.startOf path) front place) :
    left.entry? place = some .directory := by
  refine hwrote.directory ?_
  have hnames : Path.names path =
      (front.filter fun name => name ≠ [] ∧ name ≠ ['.']) ++ [Path.leaf path] := by
    have hproper : Path.leaf path ≠ [] ∧ Path.leaf path ≠ ['.'] := ⟨hname.ne_nil, hname.ne_dot⟩
    rw [Path.names, hpieces, List.filter_append]
    simp [hproper]
  rw [OnWayTo, hnames, List.dropLast_concat]
  exact h.filter

/-- The path leads to the file that has been written. -/
theorem Wrote.locate : left.locate path = .ok (tree.placeOf path) := by
  obtain ⟨front, hpieces⟩ := exists_pieces path
  have hne : path ≠ [] := by
    rintro rfl
    exact hname.ne_nil rfl
  have hnull := null_not_mem_of_plain hwrote.writable.no_null
  rw [Tree.locate, if_neg (by simp [hne, hnull]), startOf_of_cwd hwrote.cwd]
  have hway : ∀ place, OnWay (tree.startOf path) (Text.pieces '/' path).dropLast place →
      left.entry? place = some .directory := by
    intro place hplace
    rw [hpieces, List.dropLast_concat] at hplace
    exact hwrote.directory_of_pieces hname hpieces hplace
  exact follow_of_file hwrote.closed hway hwrote.file

/-- What the path spells in front of a slash is a directory. -/
theorem Wrote.isDirectory_above {above below : Text} (hpath : path = above ++ '/' :: below)
    (hne : above ≠ []) : left.isDirectory above = true := by
  obtain ⟨front, hpieces⟩ := exists_pieces path
  -- The names up to the slash are on the way to the file.
  have hprefix : Text.pieces '/' above <+: front := by
    have hsplit := Text.pieces_append '/' above below
    rw [← hpath, hpieces] at hsplit
    obtain ⟨rest, last, hbelow⟩ :=
      (Text.pieces '/' below).eq_nil_or_concat'.resolve_left (Text.pieces_ne_nil '/' below)
    rw [hbelow, ← List.append_assoc] at hsplit
    exact ⟨rest, (List.append_inj' hsplit rfl).1.symm⟩
  have hway : ∀ place, OnWay (tree.startOf path) (Text.pieces '/' above) place →
      left.entry? place = some .directory := by
    rintro place ⟨lead, hlead, rfl⟩
    exact hwrote.directory_of_pieces hname hpieces ⟨lead, hlead.trans hprefix, rfl⟩
  have hstart : left.startOf above = tree.startOf path := by
    rw [startOf_of_cwd hwrote.cwd, hpath, Tree.startOf, Tree.startOf, Path.isAbsolute_append hne]
  have hnull : '\x00' ∉ above := by
    have hno := null_not_mem_of_plain hwrote.writable.no_null
    rw [hpath] at hno
    exact fun hmem => hno (List.mem_append_left _ hmem)
  have hlocate : left.locate above = .ok (walk (tree.startOf path) (Text.pieces '/' above)) := by
    rw [Tree.locate, if_neg (by simp [hne, hnull]), hstart]
    exact follow_of_onWay hway
  rw [isDirectory, find?, hlocate]
  simp [hway _ (onWay_end _ _)]

omit hname in
/-- What is a file at another place is found as before. -/
theorem Wrote.find?_eq (hfile : tree.isFile other = true)
    (hother : left.locate other ≠ .ok (tree.placeOf path)) :
    left.find? other = tree.find? other := by
  obtain ⟨place, bytes', hlocate, hentry⟩ := isFile_iff.mp hfile
  have hlocate' := hwrote.grows.locate hlocate
  have hne : place ≠ tree.placeOf path := by
    rintro rfl
    exact hother hlocate'
  -- No file stands on the way to the path.
  have hoff : ¬ tree.OnWayTo path place := fun hway => hwrote.writable.free place hway bytes' hentry
  rw [find?, find?, hlocate, hlocate']
  show left.entry? place = tree.entry? place
  rw [hwrote.entry? place, if_neg hne, if_neg hoff]

end Tree

namespace File

variable {tree left : Tree} {path text : Text}

/-- What has been written in UTF-8 is what is read from the place of the file. -/
theorem read_of_wrote [Codecs] {bytes : Bytes} {other : Text}
    (hbytes : encode "utf-8" text = .ok bytes) (hwrote : tree.Wrote path bytes left)
    (hother : left.locate other = .ok (tree.placeOf path)) :
    read left other "utf-8" = .ok text := by
  have hfile : readBytes left other = .ok bytes := by
    rw [readBytes_eq_ok_iff, Tree.find?, hother]
    exact hwrote.file
  cases hbytes
  rw [read_eq_ok_iff]
  exact ⟨rfl, _, _, hfile, rfl, Encoding.decodeUtf8_encodeUtf8 text⟩

/-- A text that has been written in UTF-8 is read again, with its line ends, from every path that
leads to the same file. Every other path that led to a file is read as before, in whatever encoding.
The path that was written leads to a file, and everything above it to a directory. -/
theorem read_after_write [Codecs] (tree left : Tree) (path text : Text) (hclosed : tree.Closed)
    (hname : IsName (Path.leaf path)) (hwrite : write tree path text "utf-8" = (left, .ok ())) :
    left.isFile path = true ∧
      (∀ above below, path = above ++ '/' :: below → above ≠ [] → left.isDirectory above = true) ∧
      ∀ other,
        (left.locate other = left.locate path → read left other "utf-8" = .ok text) ∧
        (left.locate other ≠ left.locate path → tree.isFile other = true →
          ∀ encoding, read left other encoding = read tree other encoding) := by
  obtain ⟨bytes, hbytes, hwrote⟩ := wrote_of_write hclosed hwrite
  have hlocate := hwrote.locate hname
  refine ⟨Tree.isFile_iff.mpr ⟨_, bytes, hlocate, hwrote.file⟩, ?_, fun other => ?_⟩
  · exact fun _ _ hpath hne => hwrote.isDirectory_above hname hpath hne
  · rw [hlocate]
    refine ⟨read_of_wrote hbytes hwrote, fun hother hfile encoding => ?_⟩
    have hfind := hwrote.find?_eq hfile hother
    obtain ⟨place, bytes', hplace, hentry⟩ := Tree.isFile_iff.mp hfile
    refine read_congr ?_ hfind encoding
    rw [Tree.has, Tree.find?, hplace]
    exact Option.isSome_iff_exists.mpr ⟨_, hentry⟩

/-- A directory with two files, one of which is no text. -/
def twoFiles : Tree where
  cwd := "/home"
  entries := [(["home"], .directory), (["home", "a"], .file (Encoding.encodeUtf8 "old")),
    (["home", "b"], .file [0xff])]

/-- A path to one of them by way of a directory that is not there. -/
def roundabout : Text := "new/..//./a"

/-- The tree that is left when the file has been written by that path. -/
def writtenRoundabout : Tree := (write twoFiles roundabout "é\r\n" "utf-8").1

/-- The file is then read by another path, and the other file still cannot be read. -/
theorem read_after_write_roundabout :
    write twoFiles roundabout "é\r\n" "utf-8" = (writtenRoundabout, .ok ()) ∧
      writtenRoundabout.isFile roundabout = true ∧
      twoFiles.has "new" = false ∧ writtenRoundabout.isDirectory "new" = true ∧
      read writtenRoundabout "/home/a" "utf-8" = .ok ("é\r\n" : Text) ∧
      read writtenRoundabout "b" "utf-8" =
        .error (.encoding (.undecodable .utf8 .start 0xff 0 1)) := by
  have hdone : (write twoFiles roundabout "é\r\n" "utf-8").2 = .ok () := by decide
  have hwrite : write twoFiles roundabout "é\r\n" "utf-8" = (writtenRoundabout, .ok ()) :=
    Prod.ext rfl hdone
  obtain ⟨hfile, hdirectory, hread⟩ :=
    read_after_write twoFiles writtenRoundabout roundabout "é\r\n" (by decide) (by decide) hwrite
  refine ⟨hwrite, hfile, by decide, hdirectory "new" "..//./a" (by decide) (by decide),
    (hread "/home/a").1 (by decide), ?_⟩
  rw [(hread "b").2 (by decide) (by decide)]
  decide

end File

end Splice
