import Splice.Proofs.Mustache.Rendering
import Splice.Proofs.Tree.Paths

/-!
# How expansions fail

An expansion fails where a directive cannot be read, a file cannot be read, a text is no template or
a hook fails, or because includes nest too deep.

* `Expand.FailsOnly` — a property of all failures with which a computation can end;
* `Expansion.Covers` — a property of all failures but those of nesting; and
* `Expansion.expandDocument_failsOnly` — a property of all failures of an expansion.
-/

namespace Splice

namespace Expand

variable {α β : Type} {P : Failure → Prop}

/-- If the computation fails, its failure has the property. -/
def FailsOnly (P : Failure → Prop) (x : Expand α) : Prop :=
  ∀ warnings failure, x = some (warnings, .error failure) → P failure

theorem failsOnly_done (a : α) : (done a).FailsOnly P := by
  intro warnings failure h
  cases h

theorem failsOnly_outOfFuel : (outOfFuel : Expand α).FailsOnly P := by
  intro warnings failure h
  cases h

theorem failsOnly_warn (warning : Warning) : (warn warning).FailsOnly P := by
  intro warnings failure h
  cases h

theorem failsOnly_fail {failure : Failure} (h : P failure) :
    (fail failure : Expand α).FailsOnly P := by
  intro warnings failure' h'
  cases h'
  exact h

theorem failsOnly_ofExcept {ε : Type} {x : Except ε α} {f : ε → Failure}
    (h : ∀ e, x = .error e → P (f e)) : (ofExcept (x.mapError f)).FailsOnly P := by
  intro warnings failure hfail
  cases x with
  | error e =>
    cases hfail
    exact h e rfl
  | ok a => cases hfail

theorem FailsOnly.andThen {x : Expand α} {f : α → Expand β} (hx : x.FailsOnly P)
    (hf : ∀ a, (f a).FailsOnly P) : (x.andThen f).FailsOnly P := by
  intro warnings failure h
  rcases eq_of_andThen h with ⟨failure', hfail, herror⟩ | ⟨first, a, second, -, hfail, -⟩
  · cases herror
    exact hx warnings failure hfail
  · exact hf a second failure hfail

end Expand

/-- Is the failure another one than that includes nest too deep? -/
def Failure.Shallow (failure : Failure) : Prop := ∀ path bound, failure ≠ .tooDeep path bound

namespace Expansion

variable [Codecs] {config : Config} {tree : Tree} {P : Failure → Prop} {fuel : Nat}

/-- All failures of the parts of an expansion have the property, whether or not includes may nest
too deep. -/
structure Covers (tree : Tree) (P : Failure → Prop) : Prop where
  /-- A file cannot be read. -/
  file : ∀ {path encoding : Text} {e : File.Error}, File.read tree path encoding = .error e →
    P (.file e)
  /-- A text is no template. -/
  template : ∀ e, P (.template e)
  /-- The hook fails. -/
  hook : ∀ failure, P (.hook failure)
  /-- The variables of a directive cannot be read. -/
  directive : ∀ e, P (.directive e)

theorem covers_shallow (tree : Tree) : Covers tree Failure.Shallow where
  file _ := nofun
  template _ := nofun
  hook _ := nofun
  directive _ := nofun

theorem Covers.loadEmbedded (h : Covers tree P) {key : Text} {e : File.Error}
    (hload : Mustache.loadEmbedded tree key = .error e) : P (.file e) := by
  simp only [Mustache.loadEmbedded] at hload
  split at hload
  · rw [← File.read_utf8] at hload
    exact h.file hload
  · cases hload

/-- A pattern that is refused fails like a path with the null character. -/
theorem Covers.refused (h : Covers tree P) : P (.file .nullInPath) := by
  have hread : File.read tree ['\x00'] "utf-8" = .error .nullInPath := rfl
  exact h.file hread

theorem renderTemplate_failsOnly (h : Covers tree P) (locals : Bindings Json) (document : Text) :
    (renderTemplate config tree fuel locals document).FailsOnly P := by
  have hload : ∀ key e, (environment config tree).load key = .error e → P e := by
    intro key e hkey
    cases hloaded : Mustache.loadEmbedded tree key with
    | ok text =>
      simp only [environment, hloaded] at hkey
      cases hkey
    | error e' =>
      simp only [environment, hloaded] at hkey
      cases hkey
      exact h.loadEmbedded hloaded
  unfold renderTemplate
  split
  · have hrender := Mustache.render_failsOnly hload h.template fuel locals document
    split
    · exact Expand.failsOnly_outOfFuel
    · rename_i outcome houtcome
      intro warnings failure hfail
      cases hfail
      exact hrender failure houtcome
  · exact Expand.failsOnly_done _

theorem substitute_failsOnly (h : Covers tree P) (locals : Bindings Json) (document : Text) :
    (substitute config tree fuel locals document).FailsOnly P :=
  (renderTemplate_failsOnly h locals document).andThen fun _ => Expand.failsOnly_done _

omit [Codecs] in
theorem resolvePath_failsOnly (cwd path directory : Text) :
    (resolvePath config cwd path directory).FailsOnly P := by
  unfold resolvePath
  split
  · simp only
    split
    · exact (Expand.failsOnly_warn _).andThen fun _ => Expand.failsOnly_done _
    · exact Expand.failsOnly_done _
  · exact Expand.failsOnly_done _

theorem applyHook_failsOnly (h : Covers tree P) (text : Text) (locals : Bindings Json)
    (file : Text) : (applyHook config text locals file).FailsOnly P := by
  unfold applyHook
  split
  · exact Expand.failsOnly_done _
  · exact Expand.failsOnly_ofExcept fun failure _ => h.hook failure

theorem addFiles_failsOnly (h : Covers tree P) {expand : Text → Text → Expand Text}
    (hexpand : ∀ text directory, (expand text directory).FailsOnly P) (files : List Text)
    (text : Text) (locals : Bindings Json) :
    (addFiles config tree fuel expand files text locals).FailsOnly P := by
  induction files generalizing text locals with
  | nil => exact Expand.failsOnly_done _
  | cons file files ih =>
    refine (Expand.failsOnly_ofExcept fun e he => h.file he).andThen fun contents => ?_
    refine (substitute_failsOnly h locals _).andThen fun text => ?_
    refine (hexpand text _).andThen fun text => ?_
    exact (applyHook_failsOnly h text locals file).andThen fun (text, locals) => ih text locals

theorem includeContents_failsOnly (h : Covers tree P)
    (hdeep : ∀ path, P (.tooDeep path config.maxDepth)) {expand : Text → Text → Expand Text}
    (hexpand : ∀ text directory, (expand text directory).FailsOnly P) (path : Text)
    (locals : Bindings Json) (depth : Nat) :
    (includeContents config tree fuel expand path locals depth).FailsOnly P := by
  unfold includeContents
  split
  · exact Expand.failsOnly_fail (hdeep path)
  · split
    · exact Expand.failsOnly_fail h.refused
    · simp only
      split
      · exact (Expand.failsOnly_warn _).andThen fun _ => addFiles_failsOnly h hexpand _ _ locals
      · exact addFiles_failsOnly h hexpand _ _ locals

theorem expandIncludes_failsOnly (h : Covers tree P)
    (hdeep : ∀ path, P (.tooDeep path config.maxDepth)) (fuel : Nat) (directory : Text)
    (depth : Nat) (document : Text) :
    (expandIncludes config tree fuel directory depth document).FailsOnly P := by
  induction fuel generalizing directory depth document with
  | zero => exact Expand.failsOnly_outOfFuel
  | succ fuel ih =>
    cases hfind : Directive.find? config.delimiters document with
    | none =>
      rw [expandIncludes, hfind]
      exact Expand.failsOnly_done _
    | some directive =>
      rw [expandIncludes, hfind]
      refine Expand.FailsOnly.andThen ?_ fun contents => ih directory depth _
      refine (Expand.failsOnly_ofExcept fun e _ => h.directive e).andThen fun bindings => ?_
      refine (resolvePath_failsOnly _ _ _).andThen fun path => ?_
      exact includeContents_failsOnly h hdeep (fun text inner => ih inner (depth + 1) text) _ _ _

/-- The failures of an expansion are those of its parts, and that includes nest deeper than the
bound. -/
theorem expandDocument_failsOnly (h : Covers tree P)
    (hdeep : ∀ path, P (.tooDeep path config.maxDepth)) (fuel : Nat) (document file : Text) :
    (expandDocument config tree fuel document file).FailsOnly P :=
  (substitute_failsOnly h _ document).andThen fun document =>
    expandIncludes_failsOnly h hdeep fuel _ 0 document

end Expansion

end Splice
