import Splice.Placeholder.Resolver
import Splice.Proofs.Placeholder.Cutting

/-!
# Resolvers and the patterns that they keep

A resolver makes the pattern of a placeholder when it is asked for it first. Whatever it has been
asked for before, the pattern of a name is that of its placeholder, character by character, so that
replacing placeholders is cutting the document at each of them in turn.

* `Resolver.Sound` — a resolver as it was set up, with patterns of the names they are kept for;
* `Resolver.patternFor_sound`, `Resolver.askAll_sound` — one call, and any number of calls;
* `Resolver.replaceAll_eq` — what a sound resolver does with a document;
* `Stepwise` — a document cut at each placeholder in turn; and
* `Resolver.replaceAll_stepwise` — any resolver does that, after any calls.
-/

namespace Splice.Placeholder

variable {d : Delimiters} {expand : Bool} {globals texts : Bindings Text} {document result : Text}

/-! ### One variable after the other -/

/-- The document with the placeholders of the variables replaced: for each variable in turn, the
text is cut at the placeholder of its name. -/
inductive Stepwise (d : Delimiters) : Bindings Text → Text → Text → Prop
  | nil {document : Text} : Stepwise d [] document document
  | cons {name value document next result : Text} {texts : Bindings Text}
      (hreplaced : Text.Replaced (token d name) value document next)
      (hrest : Stepwise d texts next result) : Stepwise d ((name, value) :: texts) document result

theorem stepwise_iff : Stepwise d texts document result ↔ result = replaceAll d texts document := by
  induction texts generalizing document with
  | nil =>
    constructor
    · rintro ⟨⟩
      rfl
    · rintro rfl
      exact .nil
  | cons entry texts ih =>
    obtain ⟨name, value⟩ := entry
    rw [replaceAll_cons]
    constructor
    · rintro (_ | ⟨hreplaced, hrest⟩)
      rw [Text.replaced_iff] at hreplaced
      rw [ih.mp hrest, hreplaced]
    · rintro rfl
      exact .cons (Text.replaced_iff.mpr rfl) (ih.mpr rfl)

namespace Resolver

variable {resolver : Resolver}

/-! ### Patterns that are kept -/

/-- The compiled pattern of a placeholder. -/
def patternOf (d : Delimiters) (name : Text) : Pattern := ⟨sourceOf d name, token d name⟩

/-- The pattern of a placeholder is a literal: no character of the name or the delimiters is an
operator in it. -/
theorem compile?_sourceOf (d : Delimiters) (name : Text) :
    Pattern.compile? (sourceOf d name) = some (patternOf d name) := by
  have hliteral : Pattern.literal? (sourceOf d name) = some (token d name) := by
    rw [sourceOf, List.append_assoc, Pattern.literal?_escape_append, Pattern.literal?_escape_append,
      Pattern.literal?_escape]
    simp [token]
  rw [Pattern.compile?, hliteral]
  rfl

/-- The resolver has these delimiters and texts of global variables, and expands references or not.
Each pattern that it keeps is that of its name. -/
structure Sound (d : Delimiters) (expand : Bool) (globals : Bindings Text) (resolver : Resolver) :
    Prop where
  delimiters : resolver.delimiters = d
  expandValues : resolver.expandValues = expand
  globals : resolver.globals = globals
  memo : ∀ name pattern, Bindings.get? name resolver.memo = some pattern →
      pattern = patternOf d name

theorem sound_start (d : Delimiters) (expand : Bool) (globals : Bindings Text) :
    Sound d expand globals { delimiters := d, expandValues := expand, globals } :=
  ⟨rfl, rfl, rfl, nofun⟩

/-- A sound resolver answers with the pattern of the name, whether it is kept or made, and stays
sound. -/
theorem patternFor_sound (h : Sound d expand globals resolver) (name : Text) :
    ∃ next, resolver.patternFor name = some (patternOf d name, next) ∧
      Sound d expand globals next := by
  unfold patternFor
  cases hmemo : Bindings.get? name resolver.memo with
  | some pattern =>
    obtain rfl := h.memo name pattern hmemo
    exact ⟨resolver, rfl, h⟩
  | none =>
    have hcompile := compile?_sourceOf d name
    rw [← h.delimiters] at hcompile
    refine ⟨{ resolver with memo := Bindings.set name (patternOf d name) resolver.memo }, ?_, ?_⟩
    · simp only [hcompile, ← h.delimiters]
      rfl
    · refine ⟨h.delimiters, h.expandValues, h.globals, fun other pattern hother => ?_⟩
      rw [Bindings.get?_set] at hother
      split at hother
      · rename_i heq
        rw [← Option.some.inj hother, heq]
      · exact h.memo other pattern hother

/-- The resolver after it has been asked for the patterns of some names. -/
def askAll (resolver : Resolver) : List Text → Option Resolver
  | [] => some resolver
  | name :: names => do
      let (_, resolver) ← resolver.patternFor name
      resolver.askAll names

theorem askAll_sound (h : Sound d expand globals resolver) (names : List Text) :
    ∃ next, resolver.askAll names = some next ∧ Sound d expand globals next := by
  induction names generalizing resolver with
  | nil => exact ⟨resolver, rfl, h⟩
  | cons name names ih =>
    obtain ⟨between, hpattern, hbetween⟩ := patternFor_sound h name
    obtain ⟨next, hnext, hsound⟩ := ih hbetween
    refine ⟨next, ?_, hsound⟩
    rw [askAll, hpattern]
    exact hnext

/-! ### Replacing with kept patterns -/

theorem patterns_sound (h : Sound d expand globals resolver) (texts : Bindings Text) :
    ∃ next, resolver.patterns texts =
        some (texts.map fun (name, value) => (name, patternOf d name, value), next) ∧
      Sound d expand globals next := by
  induction texts generalizing resolver with
  | nil => exact ⟨resolver, rfl, h⟩
  | cons entry texts ih =>
    obtain ⟨name, value⟩ := entry
    obtain ⟨between, hpattern, hbetween⟩ := patternFor_sound h name
    obtain ⟨next, hnext, hsound⟩ := ih hbetween
    refine ⟨next, ?_, hsound⟩
    simp only [patterns, hpattern, Option.bind_eq_bind, Option.bind_some, hnext]
    rfl

/-- A sound resolver replaces the placeholders in a document, one variable after the other. -/
theorem replaceAll_eq (h : Sound d expand globals resolver) (texts : Bindings Text)
    (document : Text) :
    ∃ next, resolver.replaceAll texts document =
        some (Placeholder.replaceAll d texts document, next) ∧
      Sound d expand globals next := by
  obtain ⟨next, hpatterns, hsound⟩ := patterns_sound h texts
  refine ⟨next, ?_, hsound⟩
  simp only [replaceAll, hpatterns, Option.bind_eq_bind, Option.bind_some, List.foldl_map]
  rfl

/-- Whatever patterns a resolver has been asked for, it replaces placeholders as literal texts: for
each variable in turn the document is cut at the occurrences of its placeholder, which are taken
from the left and do not overlap, and the pieces are joined with its value. There is just one such
result, and it is the one that documents are expanded with. -/
theorem replaceAll_stepwise (d : Delimiters) (expand : Bool) (globals : Bindings Text)
    (asked : List Text) (texts : Bindings Text) (document : Text) :
    ∃ resolver result next,
      askAll { delimiters := d, expandValues := expand, globals } asked = some resolver ∧
        resolver.replaceAll texts document = some (result, next) ∧
        result = Placeholder.replaceAll d texts document ∧
        ∀ other, Stepwise d texts document other ↔ other = result := by
  obtain ⟨resolver, hasked, hsound⟩ := askAll_sound (sound_start d expand globals) asked
  obtain ⟨next, hresult, -⟩ := replaceAll_eq hsound texts document
  exact ⟨resolver, _, next, hasked, hresult, rfl, fun other => stepwise_iff⟩

end Resolver

end Splice.Placeholder
