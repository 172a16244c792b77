import Splice.Proofs.Glob.Existing
import Splice.Proofs.Mustache.Loading
import Splice.Proofs.Runner.Delivering
import Splice.Proofs.Tree.Apart
import Splice.Proofs.Tree.Writes

/-!
# Trees of a run

A run changes its destinations, and it makes directories for them. The trees to which it leads on
its way differ from the first and the last one at these places only, and what is no destination is
on each of them as on one of these two.

* `Runner.Touched` — the places that a run changes;
* `Runner.Between` — trees that a run can lead to, and from which it leads on;
* `Runner.Between.apart` — where such a tree differs from the last one; and
* `Runner.Between.loadEmbedded_eq` — a template that is the same before and after a run is the same
  all the time.
-/

namespace Splice.Runner

variable [Codecs] {config : Config} {fuel : Nat} {tree next after left : Tree} {source dest : Text}
  {pairs processed : List (Text × Text)} {place : Place} {bytes : Bytes}

/-! ### Places that a run changes -/

/-- The place is a destination, or a directory that has been made for one. -/
def Touched (tree left : Tree) (processed : List (Text × Text)) (place : Place) : Prop :=
  (∃ pair ∈ processed, place = tree.placeOf pair.2) ∨
    tree.entry? place = none ∧ left.entry? place = some .directory

instance (tree left : Tree) (processed : List (Text × Text)) :
    DecidablePred (Touched tree left processed) :=
  fun _ => inferInstanceAs (Decidable (_ ∨ _))

/-- Every document is written at some time, and what is written stays a file. -/
theorem Delivers.exists_wrote (hclosed : tree.Closed) (h : Delivers config fuel tree pairs left)
    {pair : Text × Text} (hmem : pair ∈ pairs) :
    ∃ (next after : Tree) (bytes : Bytes),
      next.cwd = tree.cwd ∧ next.Wrote pair.2 bytes after ∧ after.Grows left := by
  induction h with
  | nil => exact absurd hmem List.not_mem_nil
  | cons hfirst hrest ih =>
    obtain ⟨bytes, hwrote⟩ := hfirst.wrote hclosed
    rcases List.mem_cons.mp hmem with heq | hmem
    · rw [heq]
      exact ⟨_, _, bytes, rfl, hwrote, (hrest.grows hwrote.closed).1⟩
    · obtain ⟨next, after, bytes, hcwd, hnext, hgrows⟩ := ih hwrote.closed hmem
      exact ⟨next, after, bytes, hcwd.trans hwrote.cwd, hnext, hgrows⟩

/-- A destination is a file in the end. -/
theorem Delivers.file_of_mem (hclosed : tree.Closed) (h : Delivers config fuel tree pairs left)
    {pair : Text × Text} (hmem : pair ∈ pairs) :
    ∃ bytes, left.entry? (tree.placeOf pair.2) = some (.file bytes) := by
  obtain ⟨next, after, bytes, hcwd, hwrote, hgrows⟩ := h.exists_wrote hclosed hmem
  refine hgrows.file _ bytes ?_
  rw [← Tree.placeOf_of_cwd hcwd]
  exact hwrote.file

/-- A file that is no destination was there before. -/
theorem Delivers.entry?_of_file (hclosed : tree.Closed) (h : Delivers config fuel tree pairs left)
    (hfile : left.entry? place = some (.file bytes)) :
    (∃ pair ∈ pairs, place = tree.placeOf pair.2) ∨ tree.entry? place = some (.file bytes) := by
  induction h with
  | nil => exact .inr hfile
  | cons hfirst hrest ih =>
    obtain ⟨other, hwrote⟩ := hfirst.wrote hclosed
    rcases ih hwrote.closed hfile with ⟨pair, hmem, heq⟩ | hthere
    · rw [Tree.placeOf_of_cwd hwrote.cwd] at heq
      exact .inl ⟨pair, List.mem_cons_of_mem _ hmem, heq⟩
    · rw [hwrote.entry?] at hthere
      split at hthere
      · rename_i heq
        exact .inl ⟨_, List.mem_cons_self, heq⟩
      · split at hthere
        · cases hthere
        · exact .inr hthere

/-- What stands below a place that is changed has been put there. -/
theorem Delivers.touched_below (hclosed : tree.Closed)
    (h : Delivers config fuel tree processed left) {names : List Text}
    (hplace : Touched tree left processed place) (hthere : (left.entry? (place ++ names)).isSome) :
    Touched tree left processed (place ++ names) := by
  have hleft := (h.grows hclosed).2
  by_cases hnil : names = []
  · rw [hnil, List.append_nil]
    exact hplace
  · -- Only a directory has something below it, so the place is one that has been made.
    have hdirectory : left.entry? place = some .directory := by
      obtain ⟨name, rest, rfl⟩ := List.exists_cons_of_ne_nil hnil
      rw [List.append_cons] at hthere
      exact hleft.directory (hleft.isSome_front hthere)
    rcases hplace with ⟨pair, hmem, heq⟩ | ⟨hnone, -⟩
    · obtain ⟨bytes, hfile⟩ := h.file_of_mem hclosed hmem
      rw [← heq, hdirectory] at hfile
      cases hfile
    · have hnone' : tree.entry? (place ++ names) = none := by
        refine Option.not_isSome_iff_eq_none.mp fun hsome => ?_
        have hfront := hclosed.isSome_front hsome
        rw [hnone] at hfront
        cases hfront
      obtain ⟨entry, hentry⟩ := Option.isSome_iff_exists.mp hthere
      cases entry with
      | directory => exact .inr ⟨hnone', hentry⟩
      | file bytes =>
        rcases h.entry?_of_file hclosed hentry with hdest | hold
        · exact .inl hdest
        · rw [hnone'] at hold
          cases hold

/-! ### Trees between the first and the last one -/

/-- The tree is one to which a run from the first tree leads, and that leads on to the last one. -/
structure Between (tree left : Tree) (processed : List (Text × Text)) (next : Tree) : Prop where
  closed : next.Closed
  above : tree.Grows next
  below : next.Grows left
  same : Tree.SameOutside (Touched tree left processed) tree next

omit [Codecs] in
theorem Between.first (hclosed : tree.Closed) (hgrows : tree.Grows left) :
    Between tree left processed tree :=
  ⟨hclosed, .refl tree, hgrows, .refl _ tree⟩

omit [Codecs] in
/-- One more destination is written. -/
theorem Between.wrote (h : Between tree left processed next) (hwrote : next.Wrote dest bytes after)
    (hbelow : after.Grows left) (hdest : ∃ pair ∈ processed, pair.2 = dest) :
    Between tree left processed after := by
  refine ⟨hwrote.closed, h.above.trans hwrote.grows, hbelow, h.same.trans (hwrote.outside _ ?_ ?_)⟩
  · obtain ⟨pair, hmem, heq⟩ := hdest
    refine .inl ⟨pair, hmem, ?_⟩
    rw [heq, Tree.placeOf_of_cwd h.above.cwd]
  · intro place hplace hnone
    refine .inr ⟨?_, hbelow.directory place (hwrote.directory hplace)⟩
    refine Option.not_isSome_iff_eq_none.mp fun hsome => ?_
    have hthere := h.above.isSome hsome
    rw [hnone] at hthere
    cases hthere

theorem Between.delivers (h : Between tree left processed next)
    (hdelivers : Delivers config fuel next pairs after) (hbelow : after.Grows left)
    (hpairs : pairs ⊆ processed) : Between tree left processed after := by
  induction hdelivers with
  | nil => exact h
  | cons hfirst hrest ih =>
    obtain ⟨bytes, hwrote⟩ := hfirst.wrote h.closed
    have hnext := (hrest.grows hwrote.closed).1.trans hbelow
    have hfirstMem := hpairs List.mem_cons_self
    refine ih (h.wrote hwrote hnext ⟨_, hfirstMem, rfl⟩) hbelow ?_
    exact fun pair hpair => hpairs (List.mem_cons_of_mem _ hpair)

/-- The last tree and one before it differ at places only that are changed. -/
theorem Between.apart (hclosed : tree.Closed) (hdelivers : Delivers config fuel tree processed left)
    (h : Between tree left processed next) :
    Tree.Apart (Touched tree left processed) next left := by
  obtain ⟨hgrows, hleft⟩ := hdelivers.grows hclosed
  have hlast : Between tree left processed left :=
    (Between.first hclosed hgrows).delivers hdelivers (.refl left) (List.Subset.refl _)
  refine ⟨h.closed, hleft, h.same.symm.trans hlast.same, ?_, ?_⟩
  · exact fun place names hplace hthere =>
      hdelivers.touched_below hclosed hplace (h.below.isSome hthere)
  · exact fun place names hplace hthere => hdelivers.touched_below hclosed hplace hthere

/-! ### Templates -/

/-- A destination that has not the ending of templates is no template. -/
theorem Delivers.ne_template (hclosed : tree.Closed) (h : Delivers config fuel tree processed left)
    (hending : ∀ pair ∈ processed, Text.hasTail Mustache.ending (Path.plain pair.2) = false)
    {key : Text} {other : Tree} (hlocate : other.locate (Mustache.embeddedPath key) = .ok place) :
    ∀ pair ∈ processed, place ≠ tree.placeOf pair.2 := by
  intro pair hmem heq
  obtain ⟨path, hpath⟩ := Mustache.exists_embeddedPath key
  rw [hpath] at hlocate
  obtain ⟨above, last, hplace⟩ :=
    Tree.exists_last_of_locate (by decide : '/' ∉ Mustache.ending) (by decide) hlocate
  obtain ⟨before, after, bytes, hcwd, hwrote, -⟩ := h.exists_wrote hclosed hmem
  obtain ⟨front, name, lead, hdest, hplain⟩ := hwrote.exists_last
  rw [Tree.placeOf_of_cwd hcwd, ← heq, hplace] at hdest
  have hname : last ++ Mustache.ending = name := by
    simpa using (List.append_inj' hdest rfl).2
  have hno := hending pair hmem
  rw [hplain, ← hname, ← List.append_assoc, Text.hasTail_append] at hno
  cases hno

theorem loadEmbedded_congr {other : Tree} {key : Text}
    (h : other.find? (Mustache.embeddedPath key) = tree.find? (Mustache.embeddedPath key)) :
    Mustache.loadEmbedded other key = Mustache.loadEmbedded tree key := by
  have hhas : other.has (Mustache.embeddedPath key) = tree.has (Mustache.embeddedPath key) := by
    rw [Tree.has, Tree.has, h]
  simp only [Mustache.loadEmbedded, hhas]
  split
  · rename_i hthere
    exact File.read_congr hthere h "utf-8"
  · rfl

/-- A template that is the same before and after a run is the same all the time. -/
theorem Between.loadEmbedded_eq (hclosed : tree.Closed)
    (hdelivers : Delivers config fuel tree processed left)
    (hending : ∀ pair ∈ processed, Text.hasTail Mustache.ending (Path.plain pair.2) = false)
    {key : Text} (hsame : Mustache.loadEmbedded left key = Mustache.loadEmbedded tree key)
    (h : Between tree left processed next) :
    Mustache.loadEmbedded next key = Mustache.loadEmbedded tree key := by
  cases hlocate : tree.locate (Mustache.embeddedPath key) with
  | ok place =>
    -- It was there before, so that its place is not one that is changed.
    have hthere := Tree.locate_isSome hclosed hlocate
    have huntouched : ¬ Touched tree left processed place := by
      intro htouched
      rcases htouched with ⟨pair, hmem, heq⟩ | ⟨hnone, -⟩
      · exact hdelivers.ne_template hclosed hending hlocate pair hmem heq
      · rw [hnone] at hthere
        cases hthere
    refine loadEmbedded_congr ?_
    rw [Tree.find?, Tree.find?, hlocate, h.above.locate hlocate]
    exact h.same.entry? huntouched
  | error fault =>
    cases hnext : next.locate (Mustache.embeddedPath key) with
    | error fault' =>
      refine loadEmbedded_congr ?_
      rw [Tree.find?, Tree.find?, hlocate, hnext]
    | ok place =>
      -- It is there now, and will be so in the end.
      rw [← hsame]
      refine loadEmbedded_congr ?_
      rw [Tree.find?, Tree.find?, hnext, h.below.locate hnext]
      show next.entry? place = left.entry? place
      have hapart := h.apart hclosed hdelivers
      by_cases htouched : Touched tree left processed place
      · rcases htouched with ⟨pair, hmem, heq⟩ | ⟨-, hdirectory⟩
        · exact absurd heq (hdelivers.ne_template hclosed hending hnext pair hmem)
        · rw [hdirectory]
          exact h.below.directory_of (Tree.locate_isSome h.closed hnext) hdirectory
      · exact (hapart.entry? htouched).symm

end Splice.Runner
