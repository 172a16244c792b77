import Splice.Mustache.Load
import Splice.Proofs.Tree.Paths

/-!
# Trees without templates

A template can embed another only if the tree has a name with the ending of templates.

* `Tree.exists_last_of_locate` — a path leads to a place whose last name ends as the path does; and
* `Mustache.loadEmbedded_eq_nil` — without such a name, all embedded templates are empty.
-/

namespace Splice

/-! ### The last name of a path -/

/-- The last piece of a text ends as the text does, if that has no separator. -/
theorem Text.exists_pieces_append {sep : Char} {tail : Text} (h : sep ∉ tail) (text : Text) :
    ∃ front last, Text.pieces sep (text ++ tail) = front ++ [last ++ tail] := by
  induction text with
  | nil => exact ⟨[], [], Text.pieces_of_not_mem h⟩
  | cons c text ih =>
    obtain ⟨front, last, hpieces⟩ := ih
    rw [List.cons_append, Text.pieces, hpieces]
    split
    · exact ⟨[] :: front, last, rfl⟩
    · cases front with
      | nil => exact ⟨[], c :: last, rfl⟩
      | cons piece front => exact ⟨(c :: piece) :: front, last, rfl⟩

/-- Names that end with a proper one lead to a place that ends with it. -/
theorem Tree.follow_last {tree : Tree} {place target : Place} {front : List Text} {name : Text}
    (hproper : name ≠ [] ∧ name ≠ ['.'] ∧ name ≠ ['.', '.'])
    (h : tree.follow place (front ++ [name]) = .ok target) : ∃ above, target = above ++ [name] := by
  induction front generalizing place with
  | nil =>
    obtain ⟨-, next, hstep, hnext⟩ := Tree.follow_cons h
    cases hnext
    cases hstep with
    | stay hstay => exact absurd hstay (not_or.mpr ⟨hproper.1, hproper.2.1⟩)
    | up hup => exact absurd hup hproper.2.2
    | down => exact ⟨place, rfl⟩
  | cons other front ih =>
    obtain ⟨-, next, -, hnext⟩ := Tree.follow_cons h
    exact ih hnext

/-- A path leads to a place whose last name ends as the path does. -/
theorem Tree.exists_last_of_locate {tree : Tree} {tail path : Text} {place : Place}
    (hslash : '/' ∉ tail) (htail : 2 < tail.length) (h : tree.locate (path ++ tail) = .ok place) :
    ∃ above last, place = above ++ [last ++ tail] := by
  unfold Tree.locate at h
  split at h
  · cases h
  · obtain ⟨front, last, hpieces⟩ := Text.exists_pieces_append hslash path
    rw [hpieces] at h
    have hlength : 2 < (last ++ tail).length := by
      rw [List.length_append]
      omega
    have hproper : last ++ tail ≠ [] ∧ last ++ tail ≠ ['.'] ∧ last ++ tail ≠ ['.', '.'] := by
      refine ⟨?_, ?_, ?_⟩ <;>
      · intro heq
        rw [heq] at hlength
        simp at hlength
    obtain ⟨above, hplace⟩ := Tree.follow_last hproper h
    exact ⟨above, last, hplace⟩

/-- What stands where a path leads has a name that ends as the path does. -/
theorem Tree.exists_last_of_has {tree : Tree} {tail path : Text} (hslash : '/' ∉ tail)
    (htail : 2 < tail.length) (h : tree.has (path ++ tail) = true) :
    ∃ above last entry, (above ++ [last ++ tail], entry) ∈ tree.entries := by
  have hfind : (tree.find? (path ++ tail)).isSome = true := h
  unfold Tree.find? at hfind
  split at hfind
  · rename_i place hlocate
    obtain ⟨above, last, rfl⟩ := Tree.exists_last_of_locate hslash htail hlocate
    rw [Tree.entry?, if_neg (by simp)] at hfind
    obtain ⟨entry, hentry⟩ := Option.isSome_iff_exists.mp hfind
    obtain ⟨_, _, hentries, -⟩ := List.lookup_eq_some_iff.mp hentry
    exact ⟨above, last, entry, by simp [hentries]⟩
  · cases hfind

/-! ### Embedded templates -/

/-- The ending of templates. -/
def Mustache.ending : Text := ".mustache"

theorem Path.exists_join_append (base path tail : Text) :
    ∃ lead, Path.join base (path ++ tail) = lead ++ tail := by
  unfold Path.join
  split
  · exact ⟨path, rfl⟩
  · split
    · exact ⟨base ++ path, (List.append_assoc base path tail).symm⟩
    · exact ⟨base ++ '/' :: path, by simp⟩

theorem Mustache.exists_embeddedPath (key : Text) : ∃ lead, embeddedPath key = lead ++ ending :=
  Path.exists_join_append ['.'] key ending

/-- Does the tree have a name with the ending of templates? -/
def Mustache.hasTemplates (tree : Tree) : Bool :=
  tree.entries.any fun (place, _) => place.getLast?.any (Text.hasTail ending)

theorem Text.hasTail_append (text tail : Text) : Text.hasTail tail (text ++ tail) = true := by
  rw [Text.hasTail, Text.hasLead, List.reverse_append, Text.dropLead?_eq_some_iff.mpr rfl]
  rfl

/-- Without a name that has the ending of templates, all embedded templates are empty. -/
theorem Mustache.loadEmbedded_eq_nil {tree : Tree} (h : hasTemplates tree = false) (key : Text) :
    loadEmbedded tree key = .ok [] := by
  obtain ⟨path, hpath⟩ := exists_embeddedPath key
  have hnot : tree.has (embeddedPath key) = false := by
    refine Bool.eq_false_iff.mpr fun hhas => ?_
    rw [hpath] at hhas
    obtain ⟨above, last, entry, hmem⟩ :=
      Tree.exists_last_of_has (by decide : '/' ∉ ending) (by decide) hhas
    have hno := List.any_eq_false.mp h _ hmem
    simp [Text.hasTail_append] at hno
  simp only [loadEmbedded, hnot, Bool.false_eq_true, if_false]

end Splice
