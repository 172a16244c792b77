import Mathlib
import Splice.Proofs.Expansion.Fuel

/-!
# The bound on nesting

The bound decides whether an expansion is stopped, and nothing else.

* `Expansion.Cut` — one computation does the same as another, or the bound stops it;
* `Expansion.lockstep_cut` — this is kept when both go on; and
* `Expansion.expandDocument_monotone_bound` — the outcomes of an expansion under two bounds.
-/

namespace Splice.Expansion

section

variable [Codecs]
variable {bound bound' : Int}

/-- The first computation does what the second one does, or it is stopped because includes nest
deeper than the bound. -/
def Cut {α : Type} (bound : Int) (x y : Expand α) : Prop :=
  x = y ∨ ∃ warnings path, x = some (warnings, .error (.tooDeep path bound))

omit [Codecs] in
theorem Cut.andThen {α β : Type} {x y : Expand α} {f g : α → Expand β} (hxy : Cut bound x y)
    (hfg : ∀ a, Cut bound (f a) (g a)) : Cut bound (x.andThen f) (y.andThen g) := by
  rcases hxy with rfl | ⟨warnings, path, rfl⟩
  · rcases x with _ | ⟨first, failure | a⟩
    · exact .inl rfl
    · exact .inl rfl
    · rcases hfg a with heq | ⟨second, path, hcut⟩
      · left
        simp only [Expand.andThen, heq]
      · exact .inr ⟨first ++ second, path, Expand.andThen_ok hcut⟩
  · exact .inr ⟨warnings, path, Expand.andThen_error⟩

omit [Codecs] in
theorem lockstep_cut (bound : Int) : Lockstep fun _ x y => Cut bound x y where
  same _ := .inl rfl
  andThen := Cut.andThen

omit [Codecs] in
/-- The lower bound is passed first. -/
theorem Cut.withinBound (h : bound ≤ bound') {x y : Expand Text} (hxy : Cut bound x y)
    (depth : Nat) (path : Text) :
    Cut bound (withinBound bound depth path x) (withinBound bound' depth path y) := by
  unfold Expansion.withinBound
  by_cases hdeep : bound < depth
  · rw [if_pos hdeep]
    exact .inr ⟨[], path, rfl⟩
  · have hwithin : ¬ bound' < depth := by omega
    rw [if_neg hdeep, if_neg hwithin]
    exact hxy

theorem expandDocument_cut (h : bound ≤ bound') (config : Config) (tree : Tree) (fuel : Nat)
    (document file : Text) :
    Cut bound (expandDocument (config.withBound bound) tree fuel document file)
      (expandDocument (config.withBound bound') tree fuel document file) := by
  refine Cut.andThen (.inl rfl) fun substituted => ?_
  have hbound (k : Nat) (path : Text) (x y : Expand Text) (hxy : Cut bound x y) :=
    hxy.withinBound h (0 + k) path
  exact expandIncludes_lockstep (lockstep_cut bound) hbound fuel 0 _ substituted

/-- Under a higher bound an expansion has the same outcome, unless the lower bound has stopped it;
and under a lower bound it has the same outcome, or the lower bound stops it. -/
theorem expandDocument_monotone_bound (h : bound ≤ bound') (config : Config) (tree : Tree)
    (document file : Text) (warnings : List Warning) (result : Except Failure Text) :
    (DocumentExpanded (config.withBound bound) tree document file warnings result →
        DocumentExpanded (config.withBound bound') tree document file warnings result ∨
          ∃ path, result = .error (.tooDeep path bound)) ∧
      (DocumentExpanded (config.withBound bound') tree document file warnings result →
        DocumentExpanded (config.withBound bound) tree document file warnings result ∨
          ∃ before path, DocumentExpanded (config.withBound bound) tree document file before
            (.error (.tooDeep path bound))) := by
  have hcut (fuel : Nat) := expandDocument_cut h config tree fuel document file
  constructor
  · rintro ⟨fuel, hlow⟩
    rcases hcut fuel with heq | ⟨before, path, hstopped⟩
    · exact .inl ⟨fuel, heq.symm.trans hlow⟩
    · cases hstopped.symm.trans hlow
      exact .inr ⟨path, rfl⟩
  · rintro ⟨fuel, hhigh⟩
    rcases hcut fuel with heq | ⟨before, path, hstopped⟩
    · exact .inl ⟨fuel, heq.trans hhigh⟩
    · exact .inr ⟨before, path, fuel, hstopped⟩

end

/-- A site with a file that includes another one. -/
def twoLevels : Tree where
  cwd := "/site"
  entries := [(["site"], .directory),
    (["site", "x"], .file (Encoding.encodeUtf8 "<@@include(\"y\")>")),
    (["site", "y"], .file (Encoding.encodeUtf8 "hi"))]

/-- A page with two levels of includes is expanded under the bound two, and so it is under any
higher one; under the bound one its expansion is stopped. -/
theorem expandDocument_twoLevels :
    (2 : Int) ≤ 100 ∧
      DocumentExpanded (({} : Config).withBound 100) twoLevels "@@include(\"x\")" "/site/page" []
        (.ok "<hi>") ∧
      DocumentExpanded (({} : Config).withBound 1) twoLevels "@@include(\"x\")" "/site/page" []
        (.error (.tooDeep "/site/y" 1)) := by
  have htwo : DocumentExpanded (({} : Config).withBound 2) twoLevels "@@include(\"x\")" "/site/page"
      [] (.ok "<hi>") := ⟨5, by cbv⟩
  have hhigh := (expandDocument_monotone_bound (by decide : (2 : Int) ≤ 100) {} twoLevels _ _ _ _).1
    htwo
  refine ⟨by decide, hhigh.resolve_right ?_, 5, by cbv⟩
  rintro ⟨path, hpath⟩
  cases hpath

end Splice.Expansion
