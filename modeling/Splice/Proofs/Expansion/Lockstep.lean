import Splice.Proofs.Expansion.Failing

/-!
# Expansions side by side

Two expansions of one document that differ in their fuel, or in the bound on nesting, take the same
steps up to the place at which one of them is stopped. What holds of their outcomes is therefore
settled by two facts: it holds of a step that both take, and it is kept when both go on.

* `Config.withBound` — a configuration with another bound on nesting;
* `Lockstep` — a relation between outcomes that has these two properties; and
* `Expansion.addFiles_lockstep`, `Expansion.includeDirective_lockstep`,
  `Expansion.expandIncludes_lockstep` — such a relation holds between the outcomes.
-/

namespace Splice

/-- The configuration with another bound on nesting. -/
def Config.withBound (config : Config) (bound : Int) : Config := { config with maxDepth := bound }

@[simp] theorem Config.withBound_maxDepth (config : Config) :
    config.withBound config.maxDepth = config := rfl

/-- A relation between the outcomes of two computations that is kept when both go on. -/
structure Lockstep (R : (α : Type) → Expand α → Expand α → Prop) : Prop where
  /-- It relates a step to itself, unless that is stopped by the bound on nesting. -/
  same : ∀ {α : Type} {x : Expand α}, x.FailsOnly Failure.Shallow → R α x x
  /-- Related computations that go on with related ones are related. -/
  andThen : ∀ {α β : Type} {x y : Expand α} {f g : α → Expand β}, R α x y →
    (∀ a, R β (f a) (g a)) → R β (x.andThen f) (y.andThen g)

namespace Expansion

variable [Codecs] {config : Config} {tree : Tree} {R : (α : Type) → Expand α → Expand α → Prop}
variable {bound bound' : Int} {n m : Nat} {expand expand' : Text → Text → Expand Text}

/-- A computation that takes place unless `depth` is beyond the bound. -/
def withinBound (bound : Int) (depth : Nat) (path : Text) (x : Expand Text) : Expand Text :=
  if bound < depth then .fail (.tooDeep path bound) else x

theorem addFiles_lockstep (hR : Lockstep R)
    (hsubstitute : ∀ locals text,
      R Text (substitute config tree n locals text) (substitute config tree m locals text))
    (hexpand : ∀ text directory, R Text (expand text directory) (expand' text directory))
    (files : List Text) (text : Text) (locals : Bindings Json) :
    R Text (addFiles (config.withBound bound) tree n expand files text locals)
      (addFiles (config.withBound bound') tree m expand' files text locals) := by
  have hcovers := covers_shallow tree
  induction files generalizing text locals with
  | nil => exact hR.same (Expand.failsOnly_done _)
  | cons file files ih =>
    refine hR.andThen (hR.same (Expand.failsOnly_ofExcept fun e he => hcovers.file he))
      fun contents => ?_
    refine hR.andThen (hsubstitute locals _) fun text => ?_
    refine hR.andThen (hexpand text _) fun text => ?_
    exact hR.andThen (hR.same (applyHook_failsOnly hcovers text locals file))
      fun (text, locals) => ih text locals

theorem includeContents_lockstep (hR : Lockstep R)
    (hsubstitute : ∀ locals text,
      R Text (substitute config tree n locals text) (substitute config tree m locals text))
    (hexpand : ∀ text directory, R Text (expand text directory) (expand' text directory))
    {depth depth' : Nat} (hbound : ∀ path x y, R Text x y →
      R Text (withinBound bound depth path x) (withinBound bound' depth' path y))
    (path : Text) (locals : Bindings Json) :
    R Text (includeContents (config.withBound bound) tree n expand path locals depth)
      (includeContents (config.withBound bound') tree m expand' path locals depth') := by
  refine hbound path _ _ ?_
  split
  · exact hR.same (Expand.failsOnly_fail (covers_shallow tree).refused)
  · simp only
    split
    · refine hR.andThen (hR.same (Expand.failsOnly_warn _)) fun _ => ?_
      exact addFiles_lockstep hR hsubstitute hexpand _ _ locals
    · exact addFiles_lockstep hR hsubstitute hexpand _ _ locals

theorem includeDirective_lockstep (hR : Lockstep R)
    (hsubstitute : ∀ locals text,
      R Text (substitute config tree n locals text) (substitute config tree m locals text))
    (hexpand : ∀ text directory, R Text (expand text directory) (expand' text directory))
    {depth depth' : Nat} (hbound : ∀ path x y, R Text x y →
      R Text (withinBound bound (depth + 1) path x) (withinBound bound' (depth' + 1) path y))
    (directory : Text) (directive : Directive) :
    R Text (includeDirective (config.withBound bound) tree n expand directory depth directive)
      (includeDirective (config.withBound bound') tree m expand' directory depth' directive) := by
  have hbindings : (Expand.ofExcept (directive.bindings.mapError .directive)).FailsOnly
      Failure.Shallow := Expand.failsOnly_ofExcept fun e _ => (covers_shallow tree).directive e
  refine hR.andThen (hR.same hbindings) fun bindings => ?_
  refine hR.andThen (hR.same (resolvePath_failsOnly _ _ _)) fun path => ?_
  exact includeContents_lockstep hR hsubstitute hexpand hbound path _

/-- Two expansions of a document that stands at different depths, under different bounds. -/
theorem expandIncludes_lockstep (hR : Lockstep R) {depth depth' : Nat}
    (hbound : ∀ k path x y, R Text x y → R Text (withinBound bound (depth + k) path x)
      (withinBound bound' (depth' + k) path y))
    (fuel k : Nat) (directory document : Text) :
    R Text (expandIncludes (config.withBound bound) tree fuel directory (depth + k) document)
      (expandIncludes (config.withBound bound') tree fuel directory (depth' + k) document) := by
  -- The two stand `k` includes below the documents at which they began, so a nested one is deeper
  -- by one in both.
  induction fuel generalizing k directory document with
  | zero => exact hR.same Expand.failsOnly_outOfFuel
  | succ fuel ih =>
    cases hfind : Directive.find? config.delimiters document with
    | none =>
      simp only [expandIncludes, Config.withBound, hfind]
      exact hR.same (Expand.failsOnly_done _)
    | some directive =>
      simp only [expandIncludes, Config.withBound, hfind]
      refine hR.andThen ?_ fun contents => ih k directory _
      refine includeDirective_lockstep hR (fun locals text => ?_) (fun text inner => ?_)
        (hbound (k + 1)) directory directive
      · exact hR.same (substitute_failsOnly (covers_shallow tree) locals text)
      · exact ih (k + 1) inner text

end Expansion

end Splice
