import Mathlib.Data.List.Infix
import Splice.Placeholder.Resolver
import Splice.Proofs.Value.Json

/-!
# References in values

A value is made of the references to known variables in it and of single characters that stay. It
can be taken apart in one way only, since no two references overlap, and expanding it replaces the
references and leaves everything else in its place.

* `Text.readReference?_eq_some_iff` — the reference at the beginning of a text;
* `Text.IsDivision` — the references to known variables in a value, all of them, and the other
  characters;
* `Text.IsDivision.unique`, `Text.expandReferences_eq` — there is one division, and what becomes of
  it;
* `Text.expandReferences_congr` — only the values of names that are referred to make a difference;
* `Resolver.normalize_ofJson` — the texts of the variables of a directive; and
* `Resolver.expandReferences_divided` — all values, and the texts of a mapping.
-/

namespace Splice

namespace Text

variable {context context' : Bindings Text} {name other text value : Text}

/-! ### Names and references -/

/-- A name begins with an underscore or a letter and goes on with these and digits. -/
def IsName (name : Text) : Prop :=
  ∃ c rest, name = c :: rest ∧ isNameStart c = true ∧ ∀ x ∈ rest, isNameRest x = true

/-- A reference as it is written. -/
def reference (name : Text) : Text := '$' :: ('{' :: name ++ ['}'])

theorem isNameRest_of_isNameStart {c : Char} (h : isNameStart c = true) : isNameRest c = true := by
  rw [isNameRest, h]
  rfl

theorem IsName.all (h : IsName name) : ∀ x ∈ name, isNameRest x = true := by
  obtain ⟨c, rest, rfl, hc, hrest⟩ := h
  rintro x (_ | ⟨_, hx⟩)
  · exact isNameRest_of_isNameStart hc
  · exact hrest x hx

/-- A name ends where a brace follows. -/
theorem span_name {inside : Text} (h : ∀ x ∈ inside, isNameRest x = true) (behind : Text) :
    (inside ++ '}' :: behind).takeWhile isNameRest = inside ∧
      (inside ++ '}' :: behind).dropWhile isNameRest = '}' :: behind := by
  have hbrace : isNameRest '}' = false := by decide
  rw [List.takeWhile_append_of_pos h, List.dropWhile_append_of_pos h]
  simp [hbrace]

theorem readReference?_eq_some_iff {rest : Text} :
    readReference? text = some (name, rest) ↔ IsName name ∧ text = reference name ++ rest := by
  constructor
  · intro h
    unfold readReference? at h
    split at h
    · rename_i c inside
      split at h
      · rename_i hc
        split at h
        · rename_i behind hbehind
          obtain ⟨rfl, rfl⟩ := Prod.mk.inj (Option.some.inj h)
          refine ⟨⟨c, _, rfl, hc, List.all_eq_true.mp List.all_takeWhile⟩, ?_⟩
          calc
            '$' :: '{' :: c :: inside =
                '$' :: '{' :: c :: (inside.takeWhile isNameRest ++ '}' :: behind) := by
              rw [← hbehind, List.takeWhile_append_dropWhile]
            _ = reference (c :: inside.takeWhile isNameRest) ++ behind := by simp [reference]
        · cases h
      · cases h
    · cases h
  · rintro ⟨⟨c, inside, rfl, hc, hinside⟩, rfl⟩
    have htext : reference (c :: inside) ++ rest = '$' :: '{' :: c :: (inside ++ '}' :: rest) := by
      simp [reference]
    obtain ⟨htake, hdrop⟩ := span_name hinside rest
    rw [htext]
    simp only [readReference?, hc, if_true, htake, hdrop]

/-- Two references at the same place are the same. -/
theorem reference_append_inj {rest rest' : Text} (hname : IsName name) (hother : IsName other)
    (h : reference name ++ rest = reference other ++ rest') : name = other ∧ rest = rest' := by
  have hread : readReference? (reference name ++ rest) = some (name, rest) :=
    readReference?_eq_some_iff.mpr ⟨hname, rfl⟩
  rw [h, readReference?_eq_some_iff.mpr ⟨hother, rfl⟩] at hread
  exact Prod.mk.inj (Option.some.inj hread.symm)

/-- Within a reference no other one begins: behind its dollar sign there is none. -/
theorem dollar_not_mem (hname : IsName name) : '$' ∉ '{' :: name ++ ['}'] := by
  intro hmem
  have hdollar : isNameRest '$' = false := by decide
  simp only [List.cons_append, List.mem_cons, List.mem_append, List.not_mem_nil, or_false] at hmem
  rcases hmem with hbrace | hmem | hbrace
  · exact absurd hbrace (by decide)
  · rw [hname.all '$' hmem] at hdollar
    exact absurd hdollar (by decide)
  · exact absurd hbrace (by decide)

/-- Where a text begins with a reference, a later one begins behind it. -/
theorem exists_behind_reference (hname : IsName name) {before behind rest : Text}
    (hbefore : before ≠ []) (h : reference name ++ rest = before ++ (reference other ++ behind)) :
    ∃ between, before = reference name ++ between := by
  rcases List.append_eq_append_iff.mp h with ⟨between, hbetween, -⟩ | ⟨tail, htail, hrest⟩
  · exact ⟨between, hbetween⟩
  · cases tail with
    | nil => exact ⟨[], by rw [htail, List.append_nil, List.append_nil]⟩
    | cons c tail =>
      -- The later reference would begin within the first one.
      obtain ⟨d, before, rfl⟩ := List.exists_cons_of_ne_nil hbefore
      obtain ⟨rfl, -⟩ := List.cons.inj hrest
      have hinside : '{' :: name ++ ['}'] = before ++ '$' :: tail := (List.cons.inj htail).2
      refine absurd ?_ (dollar_not_mem hname)
      rw [hinside]
      exact List.mem_append_right _ List.mem_cons_self

/-! ### Division into parts -/

/-- A part of a value. -/
inductive Part where
  /-- A character that stays. -/
  | kept (c : Char)
  /-- A reference to a variable. -/
  | reference (name : Text)

/-- The part as it is written. -/
def Part.written : Part → Text
  | .kept c => [c]
  | .reference name => Text.reference name

/-- What the part becomes. -/
def Part.expanded (context : Bindings Text) : Part → Text
  | .kept c => [c]
  | .reference name => (Bindings.get? name context).getD []

theorem Part.written_ne_nil (part : Part) : part.written ≠ [] := by
  cases part <;> simp [written, Text.reference]

/-- Does the context bind the name, and is it one? -/
def IsKnown (context : Bindings Text) (name : Text) : Prop :=
  IsName name ∧ (Bindings.get? name context).isSome = true

/-- The parts make up the value. The references among them are to known variables, and each
reference to a known variable, wherever it stands in the value, is among them. -/
structure IsDivision (context : Bindings Text) (value : Text) (parts : List Part) : Prop where
  written : value = parts.flatMap Part.written
  known : ∀ name, .reference name ∈ parts → IsKnown context name
  all : ∀ before name behind, value = before ++ (reference name ++ behind) → IsKnown context name →
    ∃ front back, parts = front ++ .reference name :: back ∧ front.flatMap Part.written = before

variable {part : Part} {parts parts' : List Part}

/-- No reference to a known variable stands at the beginning of the text. -/
def NoneHere (context : Bindings Text) (text : Text) : Prop :=
  ∀ name rest, IsKnown context name → text ≠ reference name ++ rest

theorem isDivision_nil (context : Bindings Text) : IsDivision context [] [] where
  written := rfl
  known := nofun
  all before name behind h _ := by
    have := congrArg List.length h
    simp [reference] at this

theorem IsDivision.cons_kept {c : Char} (hhere : NoneHere context (c :: value))
    (h : IsDivision context value parts) : IsDivision context (c :: value) (.kept c :: parts) where
  written := by rw [h.written]; rfl
  known name hname := by
    rcases List.mem_cons.mp hname with heq | hname
    · cases heq
    · exact h.known name hname
  all before name behind heq hknown := by
    cases before with
    | nil => exact absurd heq (hhere name behind hknown)
    | cons d before =>
      obtain ⟨rfl, hrest⟩ := List.cons.inj heq
      obtain ⟨front, back, rfl, rfl⟩ := h.all before name behind hrest hknown
      exact ⟨.kept c :: front, back, rfl, rfl⟩

theorem IsDivision.cons_reference (hname : IsKnown context name)
    (h : IsDivision context value parts) :
    IsDivision context (reference name ++ value) (.reference name :: parts) where
  written := by rw [h.written]; rfl
  known other hother := by
    rcases List.mem_cons.mp hother with heq | hother
    · cases heq
      exact hname
    · exact h.known other hother
  all before other behind heq hknown := by
    by_cases hbefore : before = []
    · subst hbefore
      obtain ⟨rfl, -⟩ := reference_append_inj hname.1 hknown.1 heq
      exact ⟨[], parts, rfl, rfl⟩
    · obtain ⟨between, rfl⟩ := exists_behind_reference hname.1 hbefore heq
      rw [List.append_assoc] at heq
      obtain ⟨front, back, rfl, rfl⟩ :=
        h.all between other behind (List.append_cancel_left heq) hknown
      exact ⟨.reference name :: front, back, rfl, rfl⟩

/-- What follows the first part of a division is divided by the other parts. -/
theorem IsDivision.tail (h : IsDivision context value (part :: parts)) :
    IsDivision context (parts.flatMap Part.written) parts where
  written := rfl
  known name hname := h.known name (List.mem_cons_of_mem _ hname)
  all before name behind heq hknown := by
    have hvalue : value = part.written ++ before ++ (reference name ++ behind) := by
      rw [h.written, List.flatMap_cons, heq, List.append_assoc]
    obtain ⟨front, back, hparts, hfront⟩ := h.all _ name behind hvalue hknown
    cases front with
    | nil =>
      have hempty := (List.append_eq_nil_iff.mp hfront.symm).1
      exact absurd hempty part.written_ne_nil
    | cons first front =>
      obtain ⟨rfl, rfl⟩ := List.cons.inj hparts
      exact ⟨front, back, rfl, List.append_cancel_left hfront⟩

/-- A division begins with the reference with which the value begins. -/
theorem IsDivision.head_eq (h : IsDivision context value (part :: parts))
    (hname : IsKnown context name) {rest : Text} (hvalue : value = reference name ++ rest) :
    part = .reference name := by
  obtain ⟨front, back, hparts, hfront⟩ := h.all [] name rest hvalue hname
  cases front with
  | nil => exact (List.cons.inj hparts).1
  | cons first front => exact absurd (List.append_eq_nil_iff.mp hfront).1 first.written_ne_nil

/-- A value is divided in one way only. -/
theorem IsDivision.unique (h : IsDivision context value parts)
    (h' : IsDivision context value parts') :
    parts = parts' := by
  induction parts generalizing value parts' with
  | nil =>
    cases parts' with
    | nil => rfl
    | cons part' parts' =>
      have hempty := (List.append_eq_nil_iff.mp (h.written.symm.trans h'.written).symm).1
      exact absurd hempty part'.written_ne_nil
  | cons part parts ih =>
    cases parts' with
    | nil =>
      have hempty := (List.append_eq_nil_iff.mp (h'.written.symm.trans h.written).symm).1
      exact absurd hempty part.written_ne_nil
    | cons part' parts' =>
      -- A known reference at the front is never cut into characters.
      have hsame : part = part' := by
        cases part' with
        | reference name => exact h.head_eq (h'.known name List.mem_cons_self) h'.written
        | kept c' =>
          cases part with
          | reference name => exact (h'.head_eq (h.known name List.mem_cons_self) h.written).symm
          | kept c =>
            have hchars := h.written.symm.trans h'.written
            rw [(List.cons.inj hchars).1]
      subst hsame
      have hbehind : parts.flatMap Part.written = parts'.flatMap Part.written :=
        List.append_cancel_left (h.written.symm.trans h'.written)
      have htail := h'.tail
      rw [← hbehind] at htail
      rw [ih h.tail htail]

/-! ### Expanding -/

theorem expandReferencesAux_append (context : Bindings Text) (front text : Text) :
    expandReferencesAux context front.length (front ++ text) =
      expandReferencesAux context 0 text := by
  induction front with
  | nil => rfl
  | cons c front ih => exact ih

theorem expandReferences_reference (hname : IsName name)
    (hvalue : Bindings.get? name context = some value) (rest : Text) :
    expandReferences context (reference name ++ rest) = value ++ expandReferences context rest := by
  have hread : readReference? (reference name ++ rest) = some (name, rest) :=
    readReference?_eq_some_iff.mpr ⟨hname, rfl⟩
  have hskip : expandReferencesAux context (name.length + 2) ('{' :: name ++ ['}'] ++ rest) =
      expandReferencesAux context 0 rest := by
    rw [← expandReferencesAux_append context ('{' :: name ++ ['}']) rest]
    congr 1
    simp
  rw [expandReferences, reference, List.cons_append, expandReferencesAux]
  rw [reference, List.cons_append] at hread
  simp only [hread, Option.bind_some, hvalue, Option.map_some, hskip]
  rfl

theorem expandReferences_kept {c : Char} (h : NoneHere context (c :: text)) :
    expandReferences context (c :: text) = c :: expandReferences context text := by
  rw [expandReferences, expandReferencesAux]
  cases hread : readReference? (c :: text) with
  | none => rfl
  | some found =>
    obtain ⟨name, rest⟩ := found
    obtain ⟨hname, htext⟩ := readReference?_eq_some_iff.mp hread
    cases hvalue : Bindings.get? name context with
    | some value => exact absurd htext (h name rest ⟨hname, by rw [hvalue]; rfl⟩)
    | none =>
      simp only [Option.bind_some, hvalue, Option.map_none]
      rfl

/-- A text that is not empty begins with a reference to a known variable or with a character that
stays. -/
theorem reference_or_noneHere (context : Bindings Text) (text : Text) :
    (∃ name rest, IsKnown context name ∧ text = reference name ++ rest) ∨
      NoneHere context text := by
  by_cases h : ∃ name rest, IsKnown context name ∧ text = reference name ++ rest
  · exact .inl h
  · exact .inr fun name rest hname htext => h ⟨name, rest, hname, htext⟩

/-- Every value has a division, and expanding the value is expanding its parts. -/
theorem exists_division (context : Bindings Text) (length : Nat) (value : Text)
    (hlength : value.length ≤ length) :
    ∃ parts, IsDivision context value parts ∧
      expandReferences context value = parts.flatMap (Part.expanded context) := by
  -- The rest behind a reference is shorter by more than one character, so that the length is
  -- bounded.
  induction length generalizing value with
  | zero =>
    obtain rfl := List.length_eq_zero_iff.mp (Nat.le_zero.mp hlength)
    exact ⟨[], isDivision_nil context, rfl⟩
  | succ length ih =>
    rcases reference_or_noneHere context value with ⟨name, rest, hname, rfl⟩ | hhere
    · obtain ⟨text, htext⟩ := Option.isSome_iff_exists.mp hname.2
      have hrest : rest.length ≤ length := by
        simp only [reference, List.cons_append, List.length_cons, List.length_append] at hlength
        omega
      obtain ⟨parts, hparts, hexpanded⟩ := ih rest hrest
      refine ⟨.reference name :: parts, hparts.cons_reference hname, ?_⟩
      rw [expandReferences_reference hname.1 htext, hexpanded, List.flatMap_cons,
        Part.expanded, htext]
      rfl
    · cases value with
      | nil => exact ⟨[], isDivision_nil context, rfl⟩
      | cons c rest =>
        obtain ⟨parts, hparts, hexpanded⟩ := ih rest (Nat.le_of_succ_le_succ hlength)
        refine ⟨.kept c :: parts, hparts.cons_kept hhere, ?_⟩
        rw [expandReferences_kept hhere, hexpanded]
        rfl

/-- Expanding a value is expanding the parts of its division. -/
theorem expandReferences_eq (h : IsDivision context value parts) :
    expandReferences context value = parts.flatMap (Part.expanded context) := by
  obtain ⟨parts', hparts', hexpanded⟩ := exists_division context value.length value (Nat.le_refl _)
  rw [hexpanded, h.unique hparts']

/-! ### Names that are referred to -/

/-- Does the text refer to the name? -/
def RefersTo (text name : Text) : Prop := IsName name ∧ reference name <:+: text

/-- The names to which a text refers. -/
def referredNames (text : Text) : List Text :=
  text.tails.filterMap fun rest => (readReference? rest).map Prod.fst

theorem mem_referredNames_iff : name ∈ referredNames text ↔ RefersTo text name := by
  simp only [referredNames, List.mem_filterMap, List.mem_tails, Option.map_eq_some_iff, RefersTo]
  constructor
  · rintro ⟨rest, hrest, ⟨found, behind⟩, hread, rfl⟩
    obtain ⟨hname, rfl⟩ := readReference?_eq_some_iff.mp hread
    exact ⟨hname, List.IsInfix.trans (List.prefix_append _ behind).isInfix hrest.isInfix⟩
  · rintro ⟨hname, before, behind, rfl⟩
    refine ⟨reference name ++ behind, ⟨before, by simp⟩, (name, behind), ?_, rfl⟩
    exact readReference?_eq_some_iff.mpr ⟨hname, rfl⟩

/-- Only the values of names that a text refers to make a difference. -/
theorem expandReferencesAux_congr
    (h : ∀ name, RefersTo text name → Bindings.get? name context = Bindings.get? name context')
    (skip : Nat) :
    expandReferencesAux context skip text = expandReferencesAux context' skip text := by
  induction text generalizing skip with
  | nil => rfl
  | cons c text ih =>
    have hrest := ih fun name hname => h name ⟨hname.1, List.infix_cons hname.2⟩
    cases skip with
    | succ skip => exact hrest skip
    | zero =>
      rw [expandReferencesAux, expandReferencesAux]
      cases hread : readReference? (c :: text) with
      | none => simp only [Option.bind_none, hrest]
      | some found =>
        obtain ⟨name, behind⟩ := found
        obtain ⟨hname, htext⟩ := readReference?_eq_some_iff.mp hread
        have hget := h name ⟨hname, by rw [htext]; exact (List.prefix_append _ behind).isInfix⟩
        simp only [Option.bind_some, hget, hrest]

theorem expandReferences_congr
    (h : ∀ name, RefersTo text name → Bindings.get? name context = Bindings.get? name context') :
    expandReferences context text = expandReferences context' text :=
  expandReferencesAux_congr h 0

end Text

namespace Placeholder.Resolver

variable {context context' : Bindings Text}

/-- The texts that a resolver makes of the variables of a directive are those with which its
document is expanded. -/
theorem normalize_ofJson (resolver : Resolver) (context : Bindings Text)
    (bindings : Bindings Json) :
    resolver.normalize (bindings.map fun (name, value) => (name, Value.ofJson value))
      (some context) =
      localTexts resolver.expandValues context bindings := by
  rw [normalize, localTexts, List.map_map]
  refine List.map_congr_left ?_
  rintro ⟨name, value⟩ -
  have htext : (Value.ofJson value).toText = value.write := Value.toText_ofJson value
  have hvalue : resolver.normalizeValue context (Value.ofJson value) =
      localText resolver.expandValues context value := by
    cases value with
    | str text => rfl
    | _ => exact htext
  exact congrArg (name, ·) hvalue

/-- The texts of variables depend only on the names to which their values refer. -/
theorem normalize_congr (resolver : Resolver) {bindings : Bindings Value}
    (h : ∀ name text, (name, Value.ofText text) ∈ bindings → ∀ other, Text.RefersTo text other →
      Bindings.get? other context = Bindings.get? other context') :
    resolver.normalize bindings (some context) = resolver.normalize bindings (some context') := by
  refine List.map_congr_left ?_
  rintro ⟨name, value⟩ hentry
  have hvalue : resolver.normalizeValue context value = resolver.normalizeValue context' value := by
    unfold normalizeValue
    cases htext : value.toText? with
    | none => rfl
    | some text =>
      obtain rfl : value = Value.ofText text := by
        unfold Value.toText? at htext
        split at htext
        · rw [Option.some.inj htext]
          rfl
        · cases htext
      simp only [Text.expandReferences_congr (h name text hentry)]
  exact congrArg (name, ·) hvalue

/-- A value is divided in one way into its references to known variables, all of them, and
characters. Expanding it puts the value of the variable in the place of each such reference and
keeps every other character. Therefore the texts of variables are the same for contexts that agree
on the names to which their values refer. -/
theorem expandReferences_divided :
    (∀ context value, ∃ parts, Text.IsDivision context value parts ∧
      (∀ other, Text.IsDivision context value other → other = parts) ∧
      Text.expandReferences context value = parts.flatMap (Text.Part.expanded context)) ∧
    ∀ (resolver : Resolver) (bindings : Bindings Value) (context context' : Bindings Text),
      (∀ name text, (name, Value.ofText text) ∈ bindings → ∀ other, Text.RefersTo text other →
        Bindings.get? other context = Bindings.get? other context') →
      resolver.normalize bindings (some context) = resolver.normalize bindings (some context') := by
  refine ⟨fun context value => ?_, fun resolver bindings context context' h =>
    resolver.normalize_congr h⟩
  obtain ⟨parts, hparts, -⟩ := Text.exists_division context value.length value (Nat.le_refl _)
  exact ⟨parts, hparts, fun other hother => hother.unique hparts, Text.expandReferences_eq hparts⟩

/-- A value with dollar signs and braces of all kinds. -/
def dollars : Bindings Value := [("u", .ofText "$$\x7ba\x7d $a $\x7ba$\x7bb\x7d $\x7bA\x7d $\x7ba")]

/-- Two contexts that bind the names in this value to the same texts. -/
def contextOfOne : Bindings Text := [("a", "$\x7bb\x7d")]

/-- The second of them binds another name first. -/
def contextOfTwo : Bindings Text := [("c", "1"), ("a", "$\x7bb\x7d")]

/-- Of the names referred to only `a` is known, and its reference stands once in the value. -/
theorem normalize_dollars :
    (∀ name text, (name, Value.ofText text) ∈ dollars → ∀ other, Text.RefersTo text other →
        Bindings.get? other contextOfOne = Bindings.get? other contextOfTwo) ∧
      normalize {} dollars (some contextOfOne) =
        ([("u", "$$\x7bb\x7d $a $\x7ba$\x7bb\x7d $\x7bA\x7d $\x7ba")] : Bindings Text) ∧
      normalize {} dollars (some contextOfTwo) = normalize {} dollars (some contextOfOne) := by
  have hagree : ∀ name text, (name, Value.ofText text) ∈ dollars →
    ∀ other, Text.RefersTo text other →
      Bindings.get? other contextOfOne = Bindings.get? other contextOfTwo := by
    intro name text hentry other hother
    cases List.mem_singleton.mp hentry
    rw [← Text.mem_referredNames_iff] at hother
    revert other
    decide
  refine ⟨hagree, by decide, ?_⟩
  exact (expandReferences_divided.2 {} dollars contextOfOne contextOfTwo hagree).symm

end Placeholder.Resolver

end Splice
