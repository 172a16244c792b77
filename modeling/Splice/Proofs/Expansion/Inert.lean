import Mathlib.Data.List.Infix
import Splice.Proofs.Expansion.Fuel

/-!
# Texts without placeholders

A text in which no tag begins and no placeholder of some names stands is the same for all values of
these names.

* `Text.replace_eq_self` — nothing is replaced where the token does not occur;
* `Mustache.render_eq_self` — a template without tags stands for itself;
* `Expansion.Inert` — the text has no tag, and no placeholder of certain names;
* `Expansion.substitute_inert` — in such a text only global variables are replaced; and
* `Expansion.Quiet`, `Expansion.substitute_quiet` — in a text where no tag and no placeholder can
  begin, nothing is replaced.
-/

namespace Splice

/-! ### Tokens that do not occur -/

namespace Text

variable {token value text : Text}

theorem hasLead_eq_false (h : ¬ token <:+: text) : hasLead token text = false := by
  cases hlead : dropLead? token text with
  | none => rw [hasLead, hlead]; rfl
  | some rest =>
    rw [dropLead?_eq_some_iff] at hlead
    exact absurd ⟨[], rest, hlead.symm⟩ h

theorem not_infix_tail {c : Char} (h : ¬ token <:+: c :: text) : ¬ token <:+: text :=
  fun htail => h (List.infix_cons htail)

theorem segmentsAux_eq_self (h : ¬ token <:+: text) : segmentsAux token 0 text = [text] := by
  induction text with
  | nil => rfl
  | cons c text ih =>
    simp only [segmentsAux, hasLead_eq_false h, ih (not_infix_tail h), Bool.false_eq_true, if_false]

theorem replace_eq_self (value : Text) (h : ¬ token <:+: text) :
    replace token value text = text := by
  have htoken : token ≠ [] := by
    rintro rfl
    exact h List.nil_infix
  simp only [replace, segments, List.isEmpty_eq_false_iff.mpr htoken, segmentsAux_eq_self h,
    Bool.false_eq_true, if_false]
  exact List.append_nil text

end Text

theorem Placeholder.replaceAll_eq_self {d : Delimiters} {texts : Bindings Text} {text : Text}
    (h : ∀ name ∈ Bindings.names texts, ¬ token d name <:+: text) :
    replaceAll d texts text = text := by
  induction texts with
  | nil => rfl
  | cons entry texts ih =>
    obtain ⟨name, value⟩ := entry
    have hfirst : ¬ token d name <:+: text := h name List.mem_cons_self
    have hrest := ih fun other hother => h other (List.mem_cons_of_mem _ hother)
    show replaceAll d texts (Text.replace (token d name) value text) = text
    rw [Text.replace_eq_self value hfirst, hrest]

/-! ### Templates without tags -/

namespace Mustache

theorem tagHere?_eq_none {d : Delimiters} {text : Text} (h : ¬ d.opener <:+: text) :
    tagHere? d text = none := by
  unfold tagHere?
  split
  · rfl
  · rename_i inside hlead
    have hopener := Text.dropLead?_eq_some_iff.mp hlead
    refine absurd ⟨text.takeWhile isIndent, inside, ?_⟩ h
    rw [List.append_assoc, ← hopener, List.takeWhile_append_dropWhile]

theorem findTag?_eq_none {d : Delimiters} {text : Text} (h : ¬ d.opener <:+: text) :
    findTag? d text = none := by
  induction text with
  | nil =>
    unfold findTag?
    rw [tagHere?_eq_none h]
  | cons c text ih =>
    unfold findTag?
    simp only [tagHere?_eq_none h, ih (Text.not_infix_tail h), Option.map_none]

variable {template : Text}

theorem parse_eq_self (h : ¬ standardDelimiters.opener <:+: template) :
    parse template = .ok (addText template []).reverse := by
  unfold parse
  cases template.length with
  | zero => rfl
  | succ length => rw [parseFrom, findTag?_eq_none h]

/-- A template without tags stands for itself. -/
theorem render_eq_self {ε : Type} (env : Environment ε)
    (h : ¬ standardDelimiters.opener <:+: template) (fuel : Nat) (bindings : Bindings Json) :
    render env (fuel + 1) bindings template = some (.ok template) := by
  unfold render
  rw [renderIn, parse_eq_self h]
  cases template with
  | nil => rfl
  | cons c template =>
    simp [addText, renderNodes, Node.render, Rendered.append, Except.map]

end Mustache

/-! ### Substitution -/

namespace Expansion

/-- In the text no tag begins, and none of the names has a placeholder. -/
structure Inert (d : Delimiters) (names : List Text) (text : Text) : Prop where
  no_tag : ¬ Mustache.standardDelimiters.opener <:+: text
  no_placeholder : ∀ name ∈ names, ¬ Placeholder.token d name <:+: text

variable {config : Config} {tree : Tree} {text : Text} {locals : Bindings Json}

theorem renderTemplate_inert (h : ¬ Mustache.standardDelimiters.opener <:+: text) (fuel : Nat)
    (locals : Bindings Json) :
    renderTemplate config tree fuel locals text =
      if config.useMustache ∧ fuel = 0 then .outOfFuel else .done text := by
  unfold renderTemplate
  by_cases huse : config.useMustache = true
  · cases fuel with
    | zero =>
      simp only [huse, and_self, if_true]
      rfl
    | succ fuel =>
      simp only [huse, Mustache.render_eq_self _ h, if_true, and_false, if_false, Nat.succ_ne_zero]
      rfl
  · simp only [huse, false_and, if_false, Bool.false_eq_true]

theorem names_localTexts (expand : Bool) (context : Bindings Text) (locals : Bindings Json) :
    Bindings.names (Placeholder.localTexts expand context locals) = Bindings.names locals := by
  simp [Bindings.names, Placeholder.localTexts, Function.comp_def]

/-- Only the placeholders of global variables are replaced. -/
theorem substitute_inert (h : Inert config.delimiters (Bindings.names locals) text) (fuel : Nat) :
    substitute config tree fuel locals text =
      (if config.useMustache ∧ fuel = 0 then .outOfFuel else Expand.done text).andThen fun text =>
        .done (Placeholder.replaceAll config.delimiters
          (Placeholder.globalTexts config.globals) text)
    := by
  let texts := Placeholder.localTexts config.expandValues (Placeholder.globalTexts config.globals)
    locals
  have hlocals : Placeholder.replaceAll config.delimiters texts text = text :=
    Placeholder.replaceAll_eq_self (by rw [names_localTexts]; exact h.no_placeholder)
  have hsubstitute : substitute config tree fuel locals text =
      (renderTemplate config tree fuel locals text).andThen fun text => .done
        (Placeholder.replaceAll config.delimiters (Placeholder.globalTexts config.globals)
          (Placeholder.replaceAll config.delimiters texts text)) := rfl
  rw [hsubstitute, renderTemplate_inert h.no_tag]
  split
  · rfl
  · rw [Expand.done_andThen, Expand.done_andThen, hlocals]

/-! ### Texts in which nothing begins -/

/-- In the text neither a placeholder nor a tag can begin. -/
structure Quiet (d : Delimiters) (text : Text) : Prop where
  no_opener : ¬ d.opener <:+: text
  no_tag : ¬ Mustache.standardDelimiters.opener <:+: text

variable {d : Delimiters}

theorem Quiet.of_prefix {front : Text} (h : Quiet d text) (hfront : front <+: text) :
    Quiet d front :=
  ⟨fun hopener => h.no_opener (hopener.trans hfront.isInfix),
    fun htag => h.no_tag (htag.trans hfront.isInfix)⟩

theorem Quiet.no_placeholder (h : Quiet d text) (name : Text) :
    ¬ Placeholder.token d name <:+: text := by
  intro htoken
  refine h.no_opener (List.IsInfix.trans ?_ htoken)
  exact ⟨[], name ++ d.closer, by simp [Placeholder.token]⟩

/-- Nothing is replaced, whatever the variables are. -/
theorem substitute_quiet (h : Quiet config.delimiters text) (locals : Bindings Json) (fuel : Nat) :
    substitute config tree (fuel + 1) locals text = .done text := by
  have hinert : Inert config.delimiters (Bindings.names locals) text :=
    ⟨h.no_tag, fun name _ => h.no_placeholder name⟩
  have hglobals :
    Placeholder.replaceAll config.delimiters (Placeholder.globalTexts config.globals) text =
      text := Placeholder.replaceAll_eq_self fun name _ => h.no_placeholder name
  rw [substitute_inert hinert, if_neg (by simp), Expand.done_andThen, hglobals]

end Expansion

end Splice
