import Splice.Proofs.Expansion.Lockstep
import Splice.Proofs.Glob.Refusing

/-!
# The fuel of expansion

More fuel does not change the outcome of an expansion, so that what is included for a directive and
what a document is expanded to need no mention of fuel:

* `Expansion.Included` — the outcome of including what a directive names;
* `Expansion.Expanded` — the outcome of replacing all directives of a document; and
* `Expansion.DocumentExpanded` — the outcome of expanding a document that is read from a file.
-/

namespace Splice.Expansion

variable [Codecs] (config : Config) (tree : Tree)

/-! ### More fuel -/

omit [Codecs] in
theorem stable_renderTemplate (locals : Bindings Json) (document : Text) :
    Stable fun fuel => renderTemplate config tree fuel locals document := by
  intro n m hle
  simp only [renderTemplate]
  split
  · cases hn : Mustache.render (environment config tree) n locals document with
    | none => exact .of_none _
    | some rendered =>
      have hm := Mustache.stable_render _ locals document n m hle rendered hn
      simp only at hm
      rw [hm]
      exact .refl _
  · exact .refl _

omit [Codecs] in
theorem stable_substitute (locals : Bindings Json) (document : Text) :
    Stable fun fuel => substitute config tree fuel locals document := by
  intro n m hle
  simp only [substitute]
  exact Expand.andThen_mono (stable_renderTemplate config tree locals document n m hle)
    fun _ => .refl _

omit [Codecs] in
theorem lockstep_approximates : Lockstep fun _ x y => Approximates x y where
  same _ := .refl _
  andThen := Expand.andThen_mono

section

variable {config} {tree}
variable {n m : Nat} {expand expand' : Text → Text → Expand Text}

theorem addFiles_mono (hle : n ≤ m)
    (h : ∀ text directory, Approximates (expand text directory) (expand' text directory))
    (files : List Text) (text : Text) (locals : Bindings Json) :
    Approximates (addFiles config tree n expand files text locals)
      (addFiles config tree m expand' files text locals) := by
  rw [← config.withBound_maxDepth]
  exact addFiles_lockstep lockstep_approximates
    (fun locals text => stable_substitute config tree locals text n m hle) h files text locals

theorem includeDirective_mono (hle : n ≤ m)
    (h : ∀ text directory, Approximates (expand text directory) (expand' text directory))
    (directory : Text) (depth : Nat) (directive : Directive) :
    Approximates (includeDirective config tree n expand directory depth directive)
      (includeDirective config tree m expand' directory depth directive) := by
  rw [← config.withBound_maxDepth]
  refine includeDirective_lockstep lockstep_approximates
    (fun locals text => stable_substitute config tree locals text n m hle) h ?_ directory directive
  intro path x y hxy
  unfold withinBound
  split
  · exact .refl _
  · exact hxy

end

/-- Within the bound the files that are found are added one after the other. -/
theorem includeContents_of_found {fuel depth : Nat} {expand : Text → Text → Expand Text}
    {path : Text} {locals : Bindings Json} (hdepth : (depth : Int) ≤ config.maxDepth)
    (hfound : Glob.expandFiles tree none path ≠ []) :
    includeContents config tree fuel expand path locals depth =
      addFiles config tree fuel expand (Glob.expandFiles tree none path) [] locals := by
  have hrefused : ¬ Glob.refuses none path = true := fun h => hfound (Glob.expandFiles_of_refuses h)
  simp only [includeContents, if_neg (Int.not_lt.mpr hdepth), if_neg hrefused,
    List.isEmpty_eq_false_iff.mpr hfound]
  rfl

/-- What is included for a directive that stands in `directory` with `depth` includes around it. -/
def including (directory : Text) (depth : Nat) (directive : Directive) (fuel : Nat) : Expand Text :=
  includeDirective config tree fuel
    (fun text inner => expandIncludes config tree fuel inner (depth + 1) text)
    directory depth directive

/-- One round: the directive is replaced by what is included for it. -/
theorem expandIncludes_succ {document : Text} {directive : Directive} {directory : Text}
    {depth fuel : Nat} (h : Directive.find? config.delimiters document = some directive) :
    expandIncludes config tree (fuel + 1) directory depth document =
      (including config tree directory depth directive fuel).andThen fun contents =>
        expandIncludes config tree fuel directory depth (directive.splice contents) := by
  rw [expandIncludes, h]
  rfl

theorem expandIncludes_done {document : Text} {directory : Text} {depth fuel : Nat}
    (h : Directive.find? config.delimiters document = none) :
    expandIncludes config tree (fuel + 1) directory depth document = .done document := by
  rw [expandIncludes, h]

theorem stable_expandIncludes (directory : Text) (depth : Nat) (document : Text) :
    Stable fun fuel => expandIncludes config tree fuel directory depth document := by
  intro n
  induction n generalizing directory depth document with
  | zero => exact fun m _ => .of_none _
  | succ n ih =>
    intro m hle
    obtain ⟨m, rfl⟩ := Nat.exists_eq_add_of_le' (Nat.lt_of_lt_of_le (Nat.succ_pos n) hle)
    have hle := Nat.le_of_succ_le_succ hle
    show Approximates (expandIncludes config tree (n + 1) directory depth document)
      (expandIncludes config tree (m + 1) directory depth document)
    cases hfind : Directive.find? config.delimiters document with
    | none =>
      rw [expandIncludes_done config tree hfind, expandIncludes_done config tree hfind]
      exact .refl _
    | some directive =>
      rw [expandIncludes_succ config tree hfind, expandIncludes_succ config tree hfind]
      refine Expand.andThen_mono ?_ fun contents => ih directory depth _ m hle
      exact includeDirective_mono hle (fun text inner => ih inner (depth + 1) text m hle) _ _ _

theorem stable_including (directory : Text) (depth : Nat) (directive : Directive) :
    Stable (including config tree directory depth directive) :=
  fun n m hle => includeDirective_mono hle
    (fun text inner => stable_expandIncludes config tree inner (depth + 1) text n m hle) _ _ _

/-! ### Outcomes -/

/-- The outcome of including what a directive names. The directive stands in a document of
`directory` with `depth` includes around it. -/
def Included (directory : Text) (depth : Nat) (directive : Directive) (warnings : List Warning)
    (result : Except Failure Text) : Prop :=
  Settles (including config tree directory depth directive) (warnings, result)

/-- The outcome of replacing all directives of a document. -/
def Expanded (directory : Text) (depth : Nat) (document : Text) (warnings : List Warning)
    (result : Except Failure Text) : Prop :=
  Settles (fun fuel => expandIncludes config tree fuel directory depth document) (warnings, result)

/-- The outcome of expanding the document that is read from `file`. -/
def DocumentExpanded (document file : Text) (warnings : List Warning)
    (result : Except Failure Text) : Prop :=
  Settles (fun fuel => expandDocument config tree fuel document file) (warnings, result)

section

variable {config} {tree}
variable {directory document : Text} {depth : Nat} {directive : Directive}

theorem expanded_done (h : Directive.find? config.delimiters document = none) :
    Expanded config tree directory depth document [] (.ok document) :=
  ⟨1, expandIncludes_done config tree h⟩

theorem expanded_next {first second : List Warning} {contents : Text} {result : Except Failure Text}
    (h : Directive.find? config.delimiters document = some directive)
    (hincluded : Included config tree directory depth directive first (.ok contents))
    (hrest : Expanded config tree directory depth (directive.splice contents) second result) :
    Expanded config tree directory depth document (first ++ second) result := by
  obtain ⟨fuel, hfuel⟩ := Expand.settles_ok
    (f := fun fuel contents =>
      expandIncludes config tree fuel directory depth (directive.splice contents))
    (stable_including config tree directory depth directive)
    (stable_expandIncludes config tree directory depth _) hincluded hrest
  exact ⟨fuel + 1, (expandIncludes_succ config tree h).trans hfuel⟩

/-- The first unit of fuel makes no difference to whether an expansion ends. -/
theorem diverges_succ_iff {directory document : Text} {depth : Nat} :
    (Diverges fun fuel => expandIncludes config tree (fuel + 1) directory depth document) ↔
      Diverges fun fuel => expandIncludes config tree fuel directory depth document := by
  refine ⟨fun h fuel => ?_, fun h fuel => h (fuel + 1)⟩
  cases fuel with
  | zero => rfl
  | succ fuel => exact h fuel

end

end Splice.Expansion
