import Splice.Mustache.Escape
import Splice.Proofs.Directive.Grammar

/-!
# Escaped texts

An escaped text holds no quote, so that nothing in it is a directive. It can be read back from left
to right: each ampersand in it begins the entity of one character, and no entity begins another one.

* `Directive.find?_of_no_quote` — a text without quotes has no directive;
* `Mustache.unescape` — a text with its entities replaced by their characters; and
* `Mustache.escape_lossless_inert` — what an escaped text holds, and that it is read back.
-/

namespace Splice

/-- A directive has quotes around its path. -/
theorem Directive.find?_of_no_quote {d : Delimiters} {document : Text}
    (h : ∀ c ∈ document, isQuote c = false) : find? d document = none := by
  rw [find?_eq_none_iff]
  rintro ⟨o⟩
  have hmem : o.reading.opening ∈ document.drop o.start := by
    rw [o.fits, Reading.written_append]
    simp
  have hquote := o.reading.opening_isQuote
  rw [h _ (List.mem_of_mem_drop hmem)] at hquote
  cases hquote

namespace Mustache

variable {c : Char} {entity : Text}

/-! ### Entities -/

/-- The characters that have an entity. -/
def special : Text := ['&', '<', '>', '"', '\'', '/', '\x60', '=']

theorem entity?_eq_none_iff : entity? c = none ↔ c ∉ special := by
  unfold entity?
  split <;> simp_all [special]

/-- An entity begins with an ampersand, and behind that no character has one. -/
theorem exists_tail_of_entity? (h : entity? c = some entity) :
    ∃ tail, entity = '&' :: tail ∧ ∀ d ∈ tail, d ∉ special := by
  obtain ⟨hhead, htail⟩ :
      entity.head? = some '&' ∧ entity.tail.all (fun d => decide (d ∉ special)) = true := by
    unfold entity? at h
    split at h <;> cases h <;> decide
  obtain ⟨tail, rfl⟩ := List.head?_eq_some_iff.mp hhead
  refine ⟨tail, rfl, fun d hd => ?_⟩
  exact of_decide_eq_true (List.all_eq_true.mp htail d hd)

/-- The entity with which a text begins, behind its character. -/
def leadingEntity? (text : Text) : Option (Char × Text) :=
  special.findSome? fun c => ((entity? c).filter (Text.hasLead · text)).map fun entity =>
    (c, entity)

/-- No entity begins another one. -/
theorem leadingEntity?_append (h : entity? c = some entity) (rest : Text) :
    leadingEntity? (entity ++ rest) = some (c, entity) := by
  unfold entity? at h
  split at h <;> cases h <;> rfl

theorem leadingEntity?_of_ne (h : c ≠ '&') (rest : Text) : leadingEntity? (c :: rest) = none := by
  rw [leadingEntity?, List.findSome?_eq_none_iff]
  intro other _
  rw [Option.map_eq_none_iff, Option.filter_eq_none_iff]
  intro entity hentity
  obtain ⟨tail, rfl, -⟩ := exists_tail_of_entity? hentity
  simp [Text.hasLead, Text.dropLead?, Ne.symm h]

/-! ### Reading back -/

/-- The text with its entities replaced by their characters. While `skip` is positive the characters
belong to an entity that has been replaced. -/
def unescapeFrom (skip : Nat) : Text → Text
  | [] => []
  | c :: text =>
      match skip with
      | skip + 1 => unescapeFrom skip text
      | 0 =>
          match leadingEntity? (c :: text) with
          | some (meant, entity) => meant :: unescapeFrom (entity.length - 1) text
          | none => c :: unescapeFrom 0 text

/-- The text with its entities replaced by their characters, from left to right. What is put in is
not looked at again. -/
def unescape (text : Text) : Text := unescapeFrom 0 text

theorem unescapeFrom_append (skipped rest : Text) :
    unescapeFrom skipped.length (skipped ++ rest) = unescape rest := by
  induction skipped with
  | nil => rfl
  | cons c skipped ih => exact ih

/-- An entity is read as its character. -/
theorem unescape_entity (h : entity? c = some entity) (rest : Text) :
    unescape (entity ++ rest) = c :: unescape rest := by
  have hlead := leadingEntity?_append h rest
  obtain ⟨tail, rfl, -⟩ := exists_tail_of_entity? h
  rw [List.cons_append] at hlead
  rw [List.cons_append, unescape, unescapeFrom]
  simp only [hlead, List.length_cons, Nat.add_sub_cancel, unescapeFrom_append]

/-- Any other character stands for itself. -/
theorem unescape_cons_of_ne (h : c ≠ '&') (rest : Text) :
    unescape (c :: rest) = c :: unescape rest := by
  rw [unescape, unescapeFrom]
  simp only [leadingEntity?_of_ne h rest, unescape]

theorem escape_cons (c : Char) (text : Text) :
    escape (c :: text) = (entity? c).getD [c] ++ escape text := List.flatMap_cons

theorem unescape_escape (text : Text) : unescape (escape text) = text := by
  induction text with
  | nil => rfl
  | cons c text ih =>
    rw [escape_cons]
    cases hentity : entity? c with
    | some entity =>
      have hread := unescape_entity hentity (escape text)
      rwa [ih] at hread
    | none =>
      have hc : c ≠ '&' := by
        rintro rfl
        cases hentity
      have hread := unescape_cons_of_ne hc (escape text)
      rwa [ih] at hread

/-! ### What an escaped text holds -/

/-- Of the characters that have an entity only the ampersand is left. -/
theorem eq_ampersand_of_mem_escape {text : Text} (h : c ∈ escape text) (hspecial : c ∈ special) :
    c = '&' := by
  obtain ⟨meant, -, hc⟩ := List.mem_flatMap.mp h
  cases hentity : entity? meant with
  | some entity =>
    obtain ⟨tail, rfl, htail⟩ := exists_tail_of_entity? hentity
    rw [hentity, Option.getD_some] at hc
    rcases List.mem_cons.mp hc with hfirst | hmem
    · exact hfirst
    · exact absurd hspecial (htail c hmem)
  | none =>
    rw [hentity, Option.getD_none, List.mem_singleton] at hc
    exact absurd (hc ▸ hspecial) (entity?_eq_none_iff.mp hentity)

/-- An escaped text has none of the characters that could end an attribute value or open a tag, and
no directive, whatever the delimiters are. Reading its entities from left to right gives the text
back, so that different texts are escaped differently. -/
theorem escape_lossless_inert :
    (∀ text : Text,
      (∀ c ∈ (['<', '>', '"', '\'', '/', '\x60', '='] : Text), c ∉ escape text) ∧
        (∀ d : Delimiters, Directive.find? d (escape text) = none) ∧
        unescape (escape text) = text) ∧
      Function.Injective escape := by
  have hnone (text : Text) :
      ∀ c ∈ (['<', '>', '"', '\'', '/', '\x60', '='] : Text), c ∉ escape text := by
    intro c hc hmem
    have heq := eq_ampersand_of_mem_escape hmem (List.mem_cons_of_mem _ hc)
    rw [heq] at hc
    exact absurd hc (by decide)
  refine ⟨fun text => ⟨hnone text, fun d => ?_, unescape_escape text⟩, ?_⟩
  · refine Directive.find?_of_no_quote fun c hc => ?_
    have hdouble : c ≠ '"' := fun heq => hnone text '"' (by decide) (heq ▸ hc)
    have hsingle : c ≠ '\'' := fun heq => hnone text '\'' (by decide) (heq ▸ hc)
    simp [Directive.isQuote, hdouble, hsingle]
  · exact Function.LeftInverse.injective unescape_escape

example : unescape (escape "&lt; <&amp") = ("&lt; <&amp" : Text) := by decide

end Mustache

end Splice
