import Splice.Proofs.Outcomes
import Splice.Tree.File

/-!
# Following paths

A path is followed name by name, and only a directory has anything below it.

* `Text.pieces_append` — the names of a path on both sides of a slash;
* `Tree.follow_cons` — what one more name does;
* `Tree.leaf_ne_nil_of_isFile` — the path of a file does not end with a slash;
* `File.read_eq_ok_iff` — when a file is read; and
* `File.isFile_of_read`, `File.read_congr` — what can be read is a file, and the same where the same
  stands.
-/

namespace Splice

theorem Text.pieces_ne_nil (sep : Char) (text : Text) : pieces sep text ≠ [] := by
  cases text with
  | nil => simp [pieces]
  | cons c text =>
    rw [pieces]
    split
    · simp
    · split <;> simp

theorem Text.pieces_append (sep : Char) (text rest : Text) :
    pieces sep (text ++ sep :: rest) = pieces sep text ++ pieces sep rest := by
  induction text with
  | nil => simp [pieces]
  | cons c text ih =>
    rw [List.cons_append, pieces, pieces, ih]
    split
    · rfl
    · obtain ⟨piece, others, hpieces⟩ := List.exists_cons_of_ne_nil (pieces_ne_nil sep text)
      rw [hpieces]
      rfl

theorem Text.pieces_of_not_mem {sep : Char} {text : Text} (h : sep ∉ text) :
    Text.pieces sep text = [text] := by
  induction text with
  | nil => rfl
  | cons c text ih =>
    obtain ⟨hc, htext⟩ := List.ne_and_not_mem_of_not_mem_cons h
    rw [Text.pieces, if_neg (Ne.symm hc), ih htext]

namespace Tree

variable {tree : Tree} {place target : Place}

/-- The place to which one name leads from another place. -/
inductive Steps (tree : Tree) (place : Place) (name : Text) : Place → Prop
  /-- An empty name and a single dot stay. -/
  | stay : name = [] ∨ name = ['.'] → Steps tree place name place
  /-- A double dot leaves the directory. -/
  | up : name = ['.', '.'] → Steps tree place name place.dropLast
  /-- Any other name stands for what is in the directory. -/
  | down : name ≠ [] ∧ name ≠ ['.'] → name ≠ ['.', '.'] →
      (tree.entry? (place ++ [name])).isSome → Steps tree place name (place ++ [name])

/-- One more name leads on from a directory. -/
theorem follow_cons {name : Text} {names : List Text}
    (h : tree.follow place (name :: names) = .ok target) :
    tree.entry? place = some .directory ∧
      ∃ next, Steps tree place name next ∧ tree.follow next names = .ok target := by
  rw [follow] at h
  split at h
  · cases h
  · cases h
  · rename_i hdirectory
    refine ⟨hdirectory, ?_⟩
    split at h
    · rename_i hstay
      exact ⟨place, .stay hstay, h⟩
    · rename_i hstay
      split at h
      · rename_i hup
        exact ⟨place.dropLast, .up hup, h⟩
      · rename_i hup
        split at h
        · cases h
        · rename_i hthere
          refine ⟨place ++ [name], .down (not_or.mp hstay) hup ?_, h⟩
          simpa [Option.isSome_iff_ne_none] using hthere

/-- Names of which the last is empty lead to a directory. -/
theorem entry?_of_follow_empty {front : List Text}
    (h : tree.follow place (front ++ [[]]) = .ok target) :
    tree.entry? target = some .directory := by
  induction front generalizing place with
  | nil =>
    obtain ⟨hdirectory, next, hstep, hnext⟩ := follow_cons h
    cases hnext
    cases hstep with
    | stay => exact hdirectory
    | up hup => cases hup
    | down hproper => exact absurd rfl hproper.1
  | cons name front ih =>
    obtain ⟨-, next, -, hnext⟩ := follow_cons h
    exact ih hnext

theorem isFile_iff {path : Text} :
    tree.isFile path = true ↔
      ∃ place bytes, tree.locate path = .ok place ∧ tree.entry? place = some (.file bytes) := by
  unfold isFile find?
  cases tree.locate path with
  | error fault => simp
  | ok place =>
    cases hentry : tree.entry? place with
    | none => simp [hentry]
    | some entry => cases entry <;> simp [hentry]

/-- A path that ends with a slash does not lead to a file. -/
theorem leaf_ne_nil_of_isFile {path : Text} (h : tree.isFile path = true) :
    Path.leaf path ≠ [] := by
  intro hleaf
  obtain ⟨place, bytes, hlocate, hentry⟩ := isFile_iff.mp h
  unfold locate at hlocate
  split at hlocate
  · cases hlocate
  · rename_i hproper
    -- The last character of the path is a slash.
    obtain ⟨front, rfl⟩ : ∃ front, path = front ++ ['/'] := by
      cases hreverse : path.reverse with
      | nil =>
        rw [List.reverse_eq_nil_iff.mp hreverse] at hproper
        exact absurd (.inl rfl) hproper
      | cons c rest =>
        have hc : c = '/' := by
          rw [Path.leaf, hreverse] at hleaf
          by_cases hc : c = '/'
          · exact hc
          · simp [hc] at hleaf
        exact ⟨rest.reverse, by rw [← hc, ← List.reverse_cons, ← hreverse, List.reverse_reverse]⟩
    rw [Text.pieces_append] at hlocate
    have hdirectory := entry?_of_follow_empty hlocate
    rw [hentry] at hdirectory
    cases hdirectory

end Tree

/-- What can be read is a file. -/
theorem File.readBytes_eq_ok_iff {tree : Tree} {path : Text} {bytes : Bytes} :
    readBytes tree path = .ok bytes ↔ tree.find? path = some (.file bytes) := by
  unfold readBytes Tree.find?
  by_cases hnull : '\x00' ∈ path
  · have hlocate : tree.locate path = .error .missing := if_pos (.inr hnull)
    simp [hnull, hlocate]
  · rw [if_neg hnull]
    cases tree.locate path with
    | error fault => simp
    | ok place =>
      cases hentry : tree.entry? place with
      | none => simp [hentry]
      | some entry => cases entry <;> simp [hentry]

theorem File.has_of_readBytes {tree : Tree} {path : Text} {bytes : Bytes}
    (h : File.readBytes tree path = .ok bytes) : tree.has path = true := by
  rw [Tree.has, File.readBytes_eq_ok_iff.mp h]
  rfl

/-- Reading fails because of the path itself, or because of the tree. -/
theorem File.readBytes_error {tree : Tree} {path : Text} {e : Error}
    (h : readBytes tree path = .error e) :
    '\x00' ∈ path ∧ e = .nullInPath ∨ '\x00' ∉ path ∧ ∃ fault, e = .tree fault path := by
  unfold readBytes at h
  split at h
  · rename_i hnull
    cases h
    exact .inl ⟨hnull, rfl⟩
  · rename_i hnull
    refine .inr ⟨hnull, ?_⟩
    split at h
    · cases h
      exact ⟨_, rfl⟩
    · split at h
      · cases h
      · cases h
        exact ⟨_, rfl⟩
      · cases h
        exact ⟨_, rfl⟩

theorem File.readBytes_of_directory {tree : Tree} {path : Text}
    (h : tree.find? path = some .directory) :
    readBytes tree path = .error (.tree .isDirectory path) := by
  unfold readBytes
  unfold Tree.find? at h
  split at h
  · rename_i place hlocate
    have hnull : '\x00' ∉ path := by
      intro hnull
      have hmissing : tree.locate path = .error .missing := if_pos (.inr hnull)
      rw [hmissing] at hlocate
      cases hlocate
    simp only [if_neg hnull, hlocate, h]
  · cases h

theorem File.checkName_error {encoding : Text} {e : Error} (h : checkName encoding = .error e) :
    e = .nullInEncoding := by
  unfold checkName at h
  split at h
  · cases h
    rfl
  · cases h

/-- A file is read if the name of the encoding is not refused, the file has bytes, the name stands
for an encoding, and the bytes are a text in it. -/
theorem File.read_eq_ok_iff [Codecs] {tree : Tree} {path encoding text : Text} :
    read tree path encoding = .ok text ↔
      checkName encoding = .ok () ∧ ∃ bytes codec, readBytes tree path = .ok bytes ∧
        encodingNamed encoding = .ok codec ∧ codec.decode bytes = .ok text := by
  show (checkName encoding).bind _ = _ ↔ _
  rw [bind_eq_ok_iff]
  constructor
  · rintro ⟨_, hname, h⟩
    obtain ⟨bytes, hbytes, h⟩ := bind_eq_ok_iff.mp h
    obtain ⟨codec, hcodec, h⟩ := bind_eq_ok_iff.mp h
    exact ⟨hname, bytes, codec, hbytes, hcodec, mapError_eq_ok_iff.mp h⟩
  · rintro ⟨hname, bytes, codec, hbytes, hcodec, htext⟩
    refine ⟨(), hname, bind_eq_ok_iff.mpr ⟨bytes, hbytes, bind_eq_ok_iff.mpr ⟨codec, hcodec, ?_⟩⟩⟩
    exact mapError_eq_ok_iff.mpr htext

/-- On every machine a file is read alike in UTF-8. -/
theorem File.read_utf8 [Codecs] (tree : Tree) (path : Text) :
    read tree path "utf-8" = readUtf8 tree path := rfl

/-- What is read from a path depends on what stands there. -/
theorem File.read_congr [Codecs] {tree other : Tree} {path : Text} (hthere : tree.has path = true)
    (h : other.find? path = tree.find? path) (encoding : Text) :
    read other path encoding = read tree path encoding := by
  have hbytes : readBytes other path = readBytes tree path := by
    obtain ⟨entry, hentry⟩ := Option.isSome_iff_exists.mp hthere
    rw [hentry] at h
    cases entry with
    | directory => rw [readBytes_of_directory h, readBytes_of_directory hentry]
    | file bytes => rw [readBytes_eq_ok_iff.mpr h, readBytes_eq_ok_iff.mpr hentry]
  rw [read, read, hbytes]

theorem File.isFile_of_read [Codecs] {tree : Tree} {path encoding text : Text}
    (h : read tree path encoding = .ok text) : tree.isFile path = true := by
  obtain ⟨-, bytes, -, hbytes, -⟩ := read_eq_ok_iff.mp h
  rw [Tree.isFile, readBytes_eq_ok_iff.mp hbytes]

end Splice
