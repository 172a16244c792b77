import Splice.Proofs.Directive.Grammar
import Splice.Proofs.Json.Values

/-!
# The variables of a directive as they are written

The search ends the literal of a directive at the first closing brace behind which the directive can
end, without regard to strings and nested braces. A literal that ends too early is never taken for a
smaller object, since no object continues another.

* `Directive.Opens` — the document behind the opening brace of a literal;
* `Directive.ne_notAnObject` — a literal that is a value is an object; and
* `Directive.bindings_iff_only_object` — a directive binds variables if and only if its literal is
  the one object that begins at its opening brace.
-/

namespace Splice.Directive

variable {d : Delimiters} {document literal inside : Text} {found : Directive}

/-! ### Where a literal stands -/

/-- In the document, `inside` follows the opening brace of the literal of the directive: in front of
this brace stand the opener, the word, the path in its quotes, and the comma, with blanks in two
places. -/
def Opens (d : Delimiters) (document : Text) (directive : Directive) (inside : Text) : Prop :=
  ∃ lead opening closing blanks, AllBlank lead ∧ isQuote opening = true ∧ isQuote closing = true ∧
    AllBlank blanks ∧ document = directive.before ++ (d.opener ++ keyword ++
      (lead ++ opening :: (directive.path ++ closing :: ',' :: (blanks ++ '{' :: inside))))

/-- There is one opening brace. -/
theorem Opens.unique {inside' : Text} (h : Opens d document found inside)
    (h' : Opens d document found inside') : inside = inside' := by
  obtain ⟨lead, opening, closing, blanks, hlead, hopening, -, hblanks, htext⟩ := h
  obtain ⟨lead', opening', closing', blanks', hlead', hopening', -, hblanks', htext'⟩ := h'
  have hbrace : Text.isBlank '{' = false := by decide
  have hbehind := List.append_cancel_left (List.append_cancel_left (htext.symm.trans htext'))
  obtain ⟨-, -, hquote⟩ := blanks_append_inj hlead hlead' (isBlank_of_isQuote hopening)
    (isBlank_of_isQuote hopening') hbehind
  have hcomma := (List.cons.inj (List.cons.inj (List.append_cancel_left hquote)).2).2
  exact (blanks_append_inj hblanks hblanks' hbrace hbrace hcomma).2.2

/-- The literal of a directive stands in the document from brace to brace. -/
theorem exists_opens (hfind : find? d document = some found)
    (hliteral : found.literal = some literal) :
    ∃ inner rest, literal = '{' :: inner ++ ['}'] ∧
      Opens d document found (inner ++ '}' :: rest) := by
  obtain ⟨o, -, rfl⟩ := exists_first_of_find? hfind
  rcases o.reading.ending.eq_plain_or_binding with
    ⟨trail, ht, hending⟩ | ⟨blanks, inner, trail, hb, ht, hending⟩
  · simp only [Occurrence.directive, hending] at hliteral
    cases hliteral
  · simp only [Occurrence.directive, hending] at hliteral
    obtain rfl := Option.some.inj hliteral
    refine ⟨inner, trail ++ ')' :: (d.closer ++ o.after), rfl, o.reading.lead, o.reading.opening,
      o.reading.closing, blanks, o.reading.lead_blank, o.reading.opening_isQuote,
      o.reading.closing_isQuote, hb, ?_⟩
    calc
      document = o.directive.before ++ (o.reading.written d ++ o.after) := o.split
      _ = _ := by
        rw [Reading.written_append, hending, Ending.written_binding]
        simp [Occurrence.directive]

/-! ### What a literal binds -/

theorem bindings_eq_ok_iff (hliteral : found.literal = some literal) {fields : Bindings Json} :
    found.bindings = .ok fields ↔ Json.parse literal = .ok (.obj fields) := by
  unfold bindings
  rw [hliteral]
  simp only
  constructor
  · intro h
    split at h <;> cases h
    assumption
  · intro h
    rw [h]

/-- A literal that can be read is an object. -/
theorem ne_notAnObject (hfind : find? d document = some found) (shown : Text) :
    found.bindings ≠ .error (.notAnObject shown) := by
  intro h
  cases hliteral : found.literal with
  | none =>
    rw [bindings, hliteral] at h
    cases h
  | some literal =>
    obtain ⟨inner, rest, rfl, -⟩ := exists_opens hfind hliteral
    rw [bindings, hliteral] at h
    simp only at h
    split at h
    · cases h
    · rename_i value hother hparse
      obtain ⟨-, fields, rfl⟩ := Json.readsValue_of_braces hparse
      exact hother fields rfl
    · cases h
    · cases h

/-- Where an object begins at the opening brace of a literal, the directive binds variables just if
the literal is this object. -/
theorem bindings_iff_eq_object (hfind : find? d document = some found)
    (hliteral : found.literal = some literal) (hopens : Opens d document found inside)
    {front back : Text} {value : Json} (hobject : '{' :: inside = front ++ '}' :: back)
    (hparse : Json.parse (front ++ ['}']) = .ok value) :
    (∃ fields, found.bindings = .ok fields) ↔ front ++ ['}'] = literal := by
  obtain ⟨inner, rest, rfl, hinner⟩ := exists_opens hfind hliteral
  obtain rfl := hopens.unique hinner
  -- The object begins with the opening brace too.
  obtain ⟨inner', rfl⟩ : ∃ inner', front = '{' :: inner' := by
    cases front with
    | nil => exact absurd (List.cons.inj hobject).1 (by decide)
    | cons c front =>
      obtain ⟨rfl, -⟩ := List.cons.inj hobject
      exact ⟨front, rfl⟩
  constructor
  · intro h
    obtain ⟨fields, hfields⟩ := h
    have hparse' := (bindings_eq_ok_iff hliteral).mp hfields
    have hboth : '{' :: inner' ++ ['}'] ++ back = '{' :: inner ++ ['}'] ++ rest := by
      simpa using hobject.symm
    obtain ⟨rfl, -⟩ := Json.braces_unique hparse hparse' hboth
    rfl
  · intro h
    obtain ⟨-, fields, rfl⟩ := Json.readsValue_of_braces hparse
    rw [h] at hparse
    exact ⟨fields, (bindings_eq_ok_iff hliteral).mpr hparse⟩

/-- The literal of a directive, if it has one, begins at its opening brace. The directive binds the
variables of the object that the literal is; if the literal is none, it binds nothing, whatever
shorter or longer object begins at that brace. That the literal is a value of another kind does not
occur. -/
theorem bindings_iff_only_object (hfind : find? d document = some found) :
    (∀ shown, found.bindings ≠ .error (.notAnObject shown)) ∧
      ∀ literal, found.literal = some literal →
        (∃ inside rest, Opens d document found inside ∧ '{' :: inside = literal ++ rest) ∧
        (∀ fields, found.bindings = .ok fields ↔ Json.parse literal = .ok (.obj fields)) ∧
        ∀ inside front back value, Opens d document found inside →
          '{' :: inside = front ++ '}' :: back → Json.parse (front ++ ['}']) = .ok value →
          ((∃ fields, found.bindings = .ok fields) ↔ front ++ ['}'] = literal) := by
  refine ⟨ne_notAnObject hfind, fun literal hliteral => ⟨?_, ?_, ?_⟩⟩
  · obtain ⟨inner, rest, rfl, hopens⟩ := exists_opens hfind hliteral
    exact ⟨_, rest, hopens, by simp⟩
  · exact fun fields => bindings_eq_ok_iff hliteral
  · intro inside front back value hopens hobject hparse
    exact bindings_iff_eq_object hfind hliteral hopens hobject hparse

/-- A directive whose literal is cut short within a string. -/
def cutShort : Directive where
  before := "x"
  text := "@@include('a',\x7b\"k\":\x7b\"l\":\"\x7d)"
  path := "a"
  literal := some "\x7b\"k\":\x7b\"l\":\"\x7d"
  after := "\"\x7d\x7d)"

/-- The literal that is cut short binds nothing, although an object begins at its opening brace. -/
theorem not_bindings_cutShort :
    find? {} "x@@include('a',\x7b\"k\":\x7b\"l\":\"\x7d)\"\x7d\x7d)" = some cutShort ∧
      Json.parse "\x7b\"k\":\x7b\"l\":\"\x7d)\"\x7d\x7d" =
        .ok (.obj [("k", .obj [("l", .str "\x7d)")])]) ∧
      ¬ ∃ fields, cutShort.bindings = .ok fields := by
  have hfind : find? {} "x@@include('a',\x7b\"k\":\x7b\"l\":\"\x7d)\"\x7d\x7d)" =
      some cutShort := by decide
  have hparse : Json.parse "\x7b\"k\":\x7b\"l\":\"\x7d)\"\x7d\x7d" =
      .ok (.obj [("k", .obj [("l", .str "\x7d)")])]) := by cbv
  have hblank : AllBlank [] := fun _ h => absurd h List.not_mem_nil
  have hopens : Opens {} "x@@include('a',\x7b\"k\":\x7b\"l\":\"\x7d)\"\x7d\x7d)" cutShort
      "\"k\":\x7b\"l\":\"\x7d)\"\x7d\x7d)" :=
    ⟨[], '\'', '\'', [], hblank, by decide, by decide, hblank, by decide⟩
  obtain ⟨-, hliteral⟩ := bindings_iff_only_object hfind
  obtain ⟨-, -, honly⟩ := hliteral _ rfl
  refine ⟨hfind, hparse, fun hbindings => ?_⟩
  have hcut :=
    (honly _ "\x7b\"k\":\x7b\"l\":\"\x7d)\"\x7d" ")" _ hopens (by decide) hparse).mp hbindings
  revert hcut
  decide

end Splice.Directive
