import Mathlib.Data.List.Forall2
import Splice.Proofs.Expansion.Inert
import Splice.Proofs.Placeholder.Replacing

/-!
# Local variables in front of global ones

The placeholders of local variables are replaced first, and then those of global variables, one name
after the other. Therefore a local variable shadows a global one of its name, unless its placeholder
comes back: in the value of another variable, or where inserted text meets the text around it.

* `Bindings.AgreeExcept` — bindings of the same names that may differ in the values of some;
* `Placeholder.Avoids` — at the turn of some names none of their placeholders is left;
* `Expansion.Shadows` — local variables of which this holds when global variables are replaced;
* `Expansion.substitute_eq_of_shadows` — if they do, then the global values of their names make no
  difference, and otherwise they can make one; and
* `Expansion.substitute_resurfacing` — a global value that brings back a placeholder.
-/

namespace Splice

/-- The bindings bind the same names in the same order, and may differ in the values of some. -/
def Bindings.AgreeExcept {α : Type} (names : List Text) (bindings other : Bindings α) : Prop :=
  List.Forall₂ (fun entry entry' => entry'.1 = entry.1 ∧ (entry.1 ∉ names → entry'.2 = entry.2))
    bindings other

theorem Bindings.agreeExcept_refl {α : Type} (names : List Text) (bindings : Bindings α) :
    AgreeExcept names bindings bindings := by
  induction bindings with
  | nil => exact .nil
  | cons entry bindings ih => exact .cons ⟨rfl, fun _ => rfl⟩ ih

theorem Bindings.agreeExcept_at {α : Type} {names : List Text} {name : Text} (h : name ∈ names)
    (before after : Bindings α) (value value' : α) :
    AgreeExcept names (before ++ (name, value) :: after) (before ++ (name, value') :: after) := by
  induction before with
  | nil => exact .cons ⟨rfl, fun hname => absurd h hname⟩ (agreeExcept_refl names after)
  | cons entry before ih => exact .cons ⟨rfl, fun _ => rfl⟩ ih

namespace Placeholder

variable {d : Delimiters} {names : List Text} {texts texts' : Bindings Text} {document : Text}

/-- While variables are replaced one after the other, no placeholder of one of the names is left
when its turn comes. -/
def Avoids (d : Delimiters) (names : List Text) (texts : Bindings Text) (document : Text) : Prop :=
  ∀ before name value after, texts = before ++ (name, value) :: after → name ∈ names →
    ¬ token d name <:+: replaceAll d before document

theorem avoids_nil (d : Delimiters) (names : List Text) (document : Text) :
    Avoids d names [] document := by
  intro before name value after hsplit
  simp at hsplit

theorem avoids_cons_iff {name value : Text} :
    Avoids d names ((name, value) :: texts) document ↔
      (name ∈ names → ¬ token d name <:+: document) ∧
        Avoids d names texts (Text.replace (token d name) value document) := by
  constructor
  · intro h
    refine ⟨h [] name value texts rfl, ?_⟩
    intro before other value' after hsplit hother
    have hturn := h ((name, value) :: before) other value' after
    rw [hsplit] at hturn
    exact hturn rfl hother
  · rintro ⟨hfirst, hrest⟩ before other value' after hsplit hother
    cases before with
    | nil =>
      cases hsplit
      exact hfirst hother
    | cons entry before =>
      cases hsplit
      exact hrest before other value' after rfl hother

instance decidableAvoids (d : Delimiters) (names : List Text) :
    (texts : Bindings Text) → (document : Text) → Decidable (Avoids d names texts document)
  | [], document => .isTrue (avoids_nil d names document)
  | (name, value) :: texts, document =>
      have := decidableAvoids d names texts (Text.replace (token d name) value document)
      decidable_of_iff _ avoids_cons_iff.symm

/-- If no placeholder of the names is left at their turns, then their values make no difference. -/
theorem replaceAll_eq_of_avoids (hagree : Bindings.AgreeExcept names texts texts')
    (h : Avoids d names texts document) :
    replaceAll d texts' document = replaceAll d texts document := by
  induction hagree generalizing document with
  | nil => rfl
  | @cons entry entry' texts texts' hentry hrest ih =>
    obtain ⟨name, value⟩ := entry
    obtain ⟨name', value'⟩ := entry'
    obtain ⟨rfl, hvalue⟩ := hentry
    obtain ⟨hfirst, htail⟩ := avoids_cons_iff.mp h
    have hsame : Text.replace (token d name') value' document =
        Text.replace (token d name') value document := by
      by_cases hname : name' ∈ names
      · have hnone := hfirst hname
        rw [Text.replace_eq_self value' hnone, Text.replace_eq_self value hnone]
      · have hvalue : value' = value := hvalue hname
        rw [hvalue]
    rw [replaceAll_cons, replaceAll_cons, hsame]
    exact ih htail

/-- Where a placeholder of a name is left at its turn, its value makes a difference. -/
theorem replaceAll_ne_of_infix {c : Char} {before after : Bindings Text} {name : Text}
    (hc : ∀ other ∈ Bindings.names after, c ∉ token d other)
    (h : token d name <:+: replaceAll d before document) :
    replaceAll d (before ++ (name, [c]) :: after) document ≠
      replaceAll d (before ++ (name, [c, c]) :: after) document := by
  intro heq
  have hsegments := Text.one_lt_length_segments h
  have hlonger := length_replaceAll_marked hc
    (Text.segments (token d name) (replaceAll d before document))
  rw [replaceAll_append, replaceAll_append, replaceAll_cons, replaceAll_cons, Text.replace,
    Text.replace] at heq
  rw [heq] at hlonger
  omega

theorem globalTexts_append (first second : Bindings Value) :
    globalTexts (first ++ second) = globalTexts first ++ globalTexts second :=
  List.map_append

theorem globalTexts_ofText (name text : Text) (globals : Bindings Value) :
    globalTexts ((name, .ofText text) :: globals) = (name, text) :: globalTexts globals := rfl

theorem names_globalTexts (globals : Bindings Value) :
    Bindings.names (globalTexts globals) = Bindings.names globals := by
  simp [Bindings.names, globalTexts, Function.comp_def]

theorem agreeExcept_globalTexts {globals globals' : Bindings Value}
    (h : Bindings.AgreeExcept names globals globals') :
    Bindings.AgreeExcept names (globalTexts globals) (globalTexts globals') := by
  unfold Bindings.AgreeExcept globalTexts
  rw [List.forall₂_map_left_iff, List.forall₂_map_right_iff]
  refine List.Forall₂.imp ?_ h
  rintro ⟨name, value⟩ ⟨name', value'⟩ ⟨rfl, hvalue⟩
  refine ⟨rfl, fun hname => ?_⟩
  obtain rfl : value' = value := hvalue hname
  rfl

end Placeholder

namespace Expansion

variable {config : Config} {tree : Tree} {fuel : Nat} {locals : Bindings Json} {document : Text}

/-- The document before its global variables are replaced. -/
def localized (config : Config) (tree : Tree) (fuel : Nat) (locals : Bindings Json)
    (document : Text) : Expand Text :=
  let texts := Placeholder.localTexts config.expandValues
    (Placeholder.globalTexts config.globals) locals
  (renderTemplate config tree fuel locals document).andThen fun rendered =>
    .done (Placeholder.replaceAll config.delimiters texts rendered)

theorem substitute_eq_localized :
    substitute config tree fuel locals document =
      (localized config tree fuel locals document).andThen fun text => .done
        (Placeholder.replaceAll config.delimiters
          (Placeholder.globalTexts config.globals) text) := by
  rw [localized, Expand.andThen_assoc]
  simp only [Expand.done_andThen]
  rfl

/-- Values without references do not depend on global variables. -/
theorem localized_globals (hexpand : config.expandValues = false) (globals : Bindings Value) :
    localized { config with globals } tree fuel locals document =
      localized config tree fuel locals document := by
  have htexts (context : Bindings Text) :
      Placeholder.localTexts false context locals = Placeholder.localTexts false [] locals := by
    refine List.map_congr_left ?_
    rintro ⟨name, value⟩ -
    cases value <;> rfl
  unfold localized
  simp only [hexpand]
  rw [htexts, htexts (Placeholder.globalTexts config.globals)]
  rfl

/-- The local variables shadow the global ones: when global variables are replaced, no placeholder
of a local name is left at the turn of that name. -/
def Shadows (config : Config) (tree : Tree) (fuel : Nat) (locals : Bindings Json)
    (document : Text) : Prop :=
  ∀ warnings text, localized config tree fuel locals document = some (warnings, .ok text) →
    Placeholder.Avoids config.delimiters (Bindings.names locals)
      (Placeholder.globalTexts config.globals) text

/-- If the local variables shadow the global ones, then the global values of local names make no
difference. Conversely, if they never do and some character is in no placeholder of a global
variable, then the local variables shadow the global ones. -/
theorem substitute_eq_of_shadows (hexpand : config.expandValues = false) :
    (Shadows config tree fuel locals document → ∀ globals,
        Bindings.AgreeExcept (Bindings.names locals) config.globals globals →
          substitute { config with globals } tree fuel locals document =
            substitute config tree fuel locals document) ∧
      ((∀ globals, Bindings.AgreeExcept (Bindings.names locals) config.globals globals →
          substitute { config with globals } tree fuel locals document =
            substitute config tree fuel locals document) →
        ∀ c,
          (∀ name ∈ Bindings.names config.globals, c ∉ Placeholder.token config.delimiters name) →
          Shadows config tree fuel locals document) := by
  constructor
  · intro hshadows globals hagree
    rw [substitute_eq_localized, substitute_eq_localized, localized_globals hexpand]
    refine Expand.andThen_congr ?_
    intro warnings text htext
    have hsame := Placeholder.replaceAll_eq_of_avoids
      (Placeholder.agreeExcept_globalTexts hagree) (hshadows warnings text htext)
    exact congrArg Expand.done hsame
  · intro hlaw c hc warnings text htext before name value after hsplit hname hleft
    -- The global variable is bound to one foreign character, and then to two.
    obtain ⟨globals, rest, hglobals, rfl, hrest⟩ := List.map_eq_append_iff.mp hsplit
    obtain ⟨⟨name', value'⟩, globals', rfl, hentry, rfl⟩ := List.map_eq_cons_iff.mp hrest
    obtain rfl : name' = name := congrArg Prod.fst hentry
    have hresult (mark : Text) :
        substitute { config with globals := globals ++ (name', .ofText mark) :: globals' } tree fuel
            locals document =
          some (warnings ++ [], .ok (Placeholder.replaceAll config.delimiters
            (Placeholder.globalTexts globals ++ (name', mark) :: Placeholder.globalTexts globals')
            text)) := by
      rw [substitute_eq_localized, localized_globals hexpand, htext,
        Placeholder.globalTexts_append, Placeholder.globalTexts_ofText]
      exact Expand.andThen_ok rfl
    have hagree (mark : Text) : Bindings.AgreeExcept (Bindings.names locals) config.globals
        (globals ++ (name', .ofText mark) :: globals') := by
      rw [hglobals]
      exact Bindings.agreeExcept_at hname globals globals' value' (.ofText mark)
    have hsame := (hlaw _ (hagree [c])).trans (hlaw _ (hagree [c, c])).symm
    rw [hresult, hresult] at hsame
    have hafter : ∀ other ∈ Bindings.names (Placeholder.globalTexts globals'),
        c ∉ Placeholder.token config.delimiters other := by
      intro other hother
      rw [Placeholder.names_globalTexts] at hother
      apply hc
      rw [hglobals]
      simp only [Bindings.names, List.map_append, List.map_cons, List.mem_append, List.mem_cons]
      exact .inr (.inr hother)
    refine Placeholder.replaceAll_ne_of_infix hafter hleft ?_
    injection hsame with hpair
    exact Except.ok.inj (Prod.mk.inj hpair).2

/-- A site without files. -/
def emptySite : Tree := ⟨"/", []⟩

/-- A configuration that leaves values as they are, with two global variables. -/
def twoGlobals (first second : Text) : Config where
  globals := ([("x", .ofText first), ("y", .ofText second)] : List (Text × Value))
  expandValues := false

/-- A local variable with the name of the second of them. -/
def oneLocal : Bindings Json := ([("y", .str "l")] : List (Text × Json))

theorem agreeExcept_twoGlobals (first second second' : Text) :
    Bindings.AgreeExcept (Bindings.names oneLocal) (twoGlobals first second).globals
      (twoGlobals first second').globals := by
  have hname : ("y" : Text) ∈ Bindings.names oneLocal := by decide
  exact Bindings.agreeExcept_at hname [("x", Value.ofText first)] [] _ _

/-- The local variable shadows the global one. -/
theorem substitute_twoGlobals :
    Shadows (twoGlobals "1" "G") emptySite 1 oneLocal "@@x @@y" ∧
      substitute (twoGlobals "1" "H") emptySite 1 oneLocal "@@x @@y" = .done "1 l" := by
  have hlocalized : localized (twoGlobals "1" "G") emptySite 1 oneLocal "@@x @@y" =
      some ([], .ok "@@x l") := by
    cbv
  have hshadows : Shadows (twoGlobals "1" "G") emptySite 1 oneLocal "@@x @@y" := by
    intro warnings text htext
    cases hlocalized.symm.trans htext
    decide
  refine ⟨hshadows, ?_⟩
  have hsame := (substitute_eq_of_shadows rfl).1 hshadows _ (agreeExcept_twoGlobals "1" "G" "H")
  refine Eq.trans hsame ?_
  cbv

/-- The value of the first global variable brings back the placeholder of the second one, for which
there is a local variable: the text depends on the global value of that. -/
theorem substitute_resurfacing :
    Bindings.AgreeExcept (Bindings.names oneLocal) (twoGlobals "@@y" "G").globals
        (twoGlobals "@@y" "H").globals ∧
      substitute (twoGlobals "@@y" "G") emptySite 1 oneLocal "@@x" = .done "G" ∧
      substitute (twoGlobals "@@y" "H") emptySite 1 oneLocal "@@x" = .done "H" := by
  refine ⟨agreeExcept_twoGlobals "@@y" "G" "H", ?_, ?_⟩
  · cbv
  · cbv

end Expansion

end Splice
