import Splice.Expansion
import Splice.Proofs.Placeholder.Remembering
import Splice.Proofs.Placeholder.Referring

/-!
# Expansions with a resolver that remembers

A resolver is set up with the global variables, and every pass over a document asks it for patterns,
which it keeps, also if the expansion then fails. What it keeps makes no difference: each expansion
ends as if the resolver had been made for it alone.

* `Expansion.Remembering` — computations that use a resolver and leave it behind;
* `Remembering.expandDocument` — the expansion of a document with such a resolver;
* `Follows` — a computation does what another one does without a resolver;
* `Expansion.substitute_follows` — one pass over a document does; and
* `Expansion.expandDocument_follows` — so does a whole expansion.
-/

namespace Splice.Expansion

open Placeholder (Resolver)

variable {α β : Type}

/-- A computation with a resolver: its outcome as without one, and the resolver as it is left. -/
def Remembering (α : Type) : Type :=
  Resolver → Option ((List Warning × Except Failure α) × Resolver)

namespace Remembering

/-- A computation that does not ask the resolver. -/
def lift (x : Expand α) : Remembering α := fun resolver => x.map fun outcome => (outcome, resolver)

/-- Goes on with a result. A failure leaves the resolver as it is by then. -/
def andThen (x : Remembering α) (f : α → Remembering β) : Remembering β := fun resolver =>
  match x resolver with
  | none => none
  | some ((warnings, .error failure), resolver) => some ((warnings, .error failure), resolver)
  | some ((warnings, .ok a), resolver) =>
      (f a resolver).map fun ((more, result), resolver) => ((warnings ++ more, result), resolver)

instance : Monad Remembering where
  pure a := lift (.done a)
  bind := andThen

/-! ### Expanding with a resolver -/

/-- The placeholders of a rendered document replaced by the resolver (`substitute`). -/
def replaceBoth (locals : Bindings Json) (document : Text) : Remembering Text := fun resolver => do
  let values := locals.map fun (name, value) => (name, Value.ofJson value)
  let (document, resolver) ← resolver.replaceAll (resolver.normalize values none) document
  let (document, resolver) ← resolver.replaceAll resolver.globals document
  return (([], .ok document), resolver)

/-- The first pass over a document. -/
def substitute (config : Config) (tree : Tree) (fuel : Nat) (locals : Bindings Json)
    (document : Text) :
    Remembering Text := do
  let document ← lift (renderTemplate config tree fuel locals document)
  replaceBoth locals document

variable [Codecs]

/-- Adds the files of an include to a text. -/
def addFiles (config : Config) (tree : Tree) (fuel : Nat)
    (expand : Text → Text → Remembering Text) :
    (files : List Text) → Text → Bindings Json → Remembering Text
  | [], text, _ => lift (.done text)
  | file :: files, text, locals => do
      let contents ← lift (.ofExcept ((File.read tree file config.encoding).mapError .file))
      let text := text ++ contents ++ (if files.isEmpty then [] else ['\n'])
      let text ← substitute config tree fuel locals text
      let text ← expand text (Path.parent file)
      let (text, locals) ← lift (applyHook config text locals file)
      addFiles config tree fuel expand files text locals

/-- The expanded contents of the files that an absolute path or pattern finds. -/
def includeContents (config : Config) (tree : Tree) (fuel : Nat)
    (expand : Text → Text → Remembering Text) (path : Text) (locals : Bindings Json) (depth : Nat) :
    Remembering Text :=
  if config.maxDepth < depth then lift (.fail (.tooDeep path config.maxDepth))
  else if Glob.refuses none path then lift (.fail (.file .nullInPath))
  else do
    let files := Glob.expandFiles tree none path
    if files.isEmpty then lift (.warn (.includeNotFound path))
    addFiles config tree fuel expand files [] locals

/-- The expanded contents of the files that a directive names. -/
def includeDirective (config : Config) (tree : Tree) (fuel : Nat)
    (expand : Text → Text → Remembering Text) (directory : Text) (depth : Nat)
    (directive : Directive) :
    Remembering Text := do
  let bindings ← lift (.ofExcept (directive.bindings.mapError .directive))
  let path ← lift (resolvePath config tree.cwd directive.path directory)
  includeContents config tree fuel expand path (localsOf config tree path bindings) (depth + 1)

/-- A document with its include directives replaced. -/
def expandIncludes (config : Config) (tree : Tree) :
    (fuel : Nat) → (directory : Text) → (depth : Nat) → Text → Remembering Text
  | 0, _, _, _ => lift .outOfFuel
  | fuel + 1, directory, depth, document =>
      match Directive.find? config.delimiters document with
      | none => lift (.done document)
      | some directive => do
          let expand := fun text inner => expandIncludes config tree fuel inner (depth + 1) text
          let contents ← includeDirective config tree fuel expand directory depth directive
          expandIncludes config tree fuel directory depth (directive.splice contents)

/-- The document that is read from `file`, fully expanded. -/
def expandDocument (config : Config) (tree : Tree) (fuel : Nat) (document file : Text) :
    Remembering Text := do
  let document ← substitute config tree fuel [(docrootName, docrootOf config tree file)] document
  expandIncludes config tree fuel (Path.parent file) 0 document

end Remembering

/-! ### Resolvers that serve a configuration -/

/-- The resolver is that of an expansion with the configuration, whatever has been expanded so
far. -/
def Serves (config : Config) (resolver : Resolver) : Prop :=
  resolver.Sound config.delimiters config.expandValues (Placeholder.globalTexts config.globals)

/-- The resolver of a new runner. There is none if the global variables cannot be shown. -/
def resolverOf (config : Config) : Option Resolver :=
  Resolver.setGlobals { delimiters := config.delimiters, expandValues := config.expandValues }
    config.globals

theorem serves_of_prepare {config : Config} (h : prepare config = .ok ()) :
    ∃ resolver, resolverOf config = some resolver ∧ Serves config resolver := by
  unfold prepare at h
  split at h
  · rename_i hshown
    exact ⟨_, if_pos hshown, Resolver.sound_start _ _ _⟩
  · cases h

/-- With any resolver that serves the configuration the computation comes to what the other one
comes to, and it leaves a resolver that serves it too. -/
def Follows (config : Config) (x : Resolver → Option (α × Resolver)) (y : Option α) : Prop :=
  ∀ resolver, Serves config resolver →
    ∃ next, Serves config next ∧ x resolver = y.map fun outcome => (outcome, next)

variable {config : Config} {tree : Tree} {fuel : Nat}

theorem follows_lift (x : Expand α) : Follows config (Remembering.lift x) x :=
  fun resolver h => ⟨resolver, h, rfl⟩

theorem Follows.andThen {x : Remembering α} {y : Expand α} {f : α → Remembering β}
    {g : α → Expand β} (hx : Follows config x y) (hf : ∀ a, Follows config (f a) (g a)) :
    Follows config (x.andThen f) (y.andThen g) := by
  intro resolver h
  obtain ⟨between, hbetween, hfirst⟩ := hx resolver h
  rcases y with _ | ⟨warnings, failure | a⟩
  · exact ⟨between, hbetween, by simp only [Remembering.andThen, hfirst]; rfl⟩
  · exact ⟨between, hbetween, by simp only [Remembering.andThen, hfirst]; rfl⟩
  · obtain ⟨next, hnext, hsecond⟩ := hf a between hbetween
    refine ⟨next, hnext, ?_⟩
    simp only [Remembering.andThen, hfirst, Option.map_some, hsecond, Expand.andThen]
    rcases g a with _ | ⟨more, result⟩ <;> rfl

/-! ### One pass -/

theorem replaceBoth_follows (locals : Bindings Json) (document : Text) :
    Follows config (Remembering.replaceBoth locals document)
      (Expand.done (Placeholder.replaceAll config.delimiters
        (Placeholder.globalTexts config.globals) (Placeholder.replaceAll config.delimiters
          (Placeholder.localTexts config.expandValues
            (Placeholder.globalTexts config.globals) locals)
          document))) := by
  intro resolver h
  have htexts :
    resolver.normalize (locals.map fun (name, value) => (name, Value.ofJson value)) none =
      Placeholder.localTexts config.expandValues
        (Placeholder.globalTexts config.globals) locals := by
    rw [← h.expandValues, ← h.globals]
    exact resolver.normalize_ofJson resolver.globals locals
  obtain ⟨between, hlocal, hbetween⟩ := Resolver.replaceAll_eq h
    (Placeholder.localTexts config.expandValues (Placeholder.globalTexts config.globals) locals)
    document
  obtain ⟨next, hglobal, hnext⟩ := Resolver.replaceAll_eq hbetween
    (Placeholder.globalTexts config.globals) (Placeholder.replaceAll config.delimiters
      (Placeholder.localTexts config.expandValues (Placeholder.globalTexts config.globals) locals)
      document)
  refine ⟨next, hnext, ?_⟩
  simp only [Remembering.replaceBoth, htexts, hlocal, hbetween.globals, hglobal,
    Option.bind_eq_bind, Option.bind_some]
  rfl

/-- A pass over a document with the resolver does what it does without. -/
theorem substitute_follows (locals : Bindings Json) (document : Text) :
    Follows config (Remembering.substitute config tree fuel locals document)
      (substitute config tree fuel locals document) :=
  (follows_lift _).andThen fun rendered => replaceBoth_follows locals rendered

/-! ### Whole documents -/

section

variable [Codecs]

theorem addFiles_follows {expand : Text → Text → Remembering Text}
    {expand' : Text → Text → Expand Text}
    (hexpand : ∀ text directory, Follows config (expand text directory) (expand' text directory))
    (files : List Text) (text : Text) (locals : Bindings Json) :
    Follows config (Remembering.addFiles config tree fuel expand files text locals)
      (addFiles config tree fuel expand' files text locals) := by
  induction files generalizing text locals with
  | nil => exact follows_lift _
  | cons file files ih =>
    refine (follows_lift _).andThen fun contents => ?_
    refine (substitute_follows locals _).andThen fun substituted => ?_
    refine (hexpand substituted (Path.parent file)).andThen fun expanded => ?_
    exact (follows_lift _).andThen fun hooked => ih hooked.1 hooked.2

theorem includeContents_follows {expand : Text → Text → Remembering Text}
    {expand' : Text → Text → Expand Text}
    (hexpand : ∀ text directory, Follows config (expand text directory) (expand' text directory))
    (path : Text) (locals : Bindings Json) (depth : Nat) :
    Follows config (Remembering.includeContents config tree fuel expand path locals depth)
      (includeContents config tree fuel expand' path locals depth) := by
  unfold Remembering.includeContents includeContents
  split
  · exact follows_lift _
  · split
    · exact follows_lift _
    · simp only
      split
      · exact (follows_lift _).andThen fun _ => addFiles_follows hexpand _ [] locals
      · exact addFiles_follows hexpand _ [] locals

theorem includeDirective_follows (tree : Tree) (fuel : Nat)
    {expand : Text → Text → Remembering Text} {expand' : Text → Text → Expand Text}
    (hexpand : ∀ text directory, Follows config (expand text directory) (expand' text directory))
    (directory : Text) (depth : Nat) (directive : Directive) :
    Follows config (Remembering.includeDirective config tree fuel expand directory depth directive)
      (includeDirective config tree fuel expand' directory depth directive) := by
  refine (follows_lift _).andThen fun bindings => ?_
  exact (follows_lift _).andThen fun path => includeContents_follows hexpand path _ (depth + 1)

theorem expandIncludes_follows (fuel : Nat) (directory : Text) (depth : Nat) (document : Text) :
    Follows config (Remembering.expandIncludes config tree fuel directory depth document)
      (expandIncludes config tree fuel directory depth document) := by
  induction fuel generalizing directory depth document with
  | zero => exact follows_lift _
  | succ fuel ih =>
    unfold Remembering.expandIncludes expandIncludes
    cases Directive.find? config.delimiters document with
    | none => exact follows_lift _
    | some directive =>
      have hincluded :=
        includeDirective_follows tree fuel (fun text inner => ih inner (depth + 1) text) directory
          depth directive
      exact hincluded.andThen fun contents => ih directory depth (directive.splice contents)

theorem expandDocument_follows (document file : Text) :
    Follows config (Remembering.expandDocument config tree fuel document file)
      (expandDocument config tree fuel document file) :=
  (substitute_follows _ document).andThen fun substituted =>
    expandIncludes_follows fuel (Path.parent file) 0 substituted

end

end Splice.Expansion
