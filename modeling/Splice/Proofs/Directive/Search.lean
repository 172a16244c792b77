import Splice.Directive

/-!
# Searching a text from the left

The readers of a directive look for the first place at which the rest can be read: the path for its
closing quote, the literal for its closing brace, and the document for the directive. This module
states them as one search:

* `Text.search` — the text before the first place at which a reader succeeds, with what it read;
* `Text.search_eq_some_iff`, `Text.search_eq_none_iff` — what the first place means; and
* `Directive.readLiteral?_eq_search`, `Directive.readPath?_eq_search`, `Directive.find?_eq_search` —
  the three readers as searches.
-/

namespace Splice

namespace Text

variable {α : Type}

/-- The text before the first place at which `read` succeeds, and what it reads there. The search
does not pass a character for which `stop` holds. -/
def search (read : Text → Option α) (stop : Char → Bool) : Text → Option (Text × α)
  | [] => (read []).map fun a => ([], a)
  | c :: text =>
      match read (c :: text) with
      | some a => some ([], a)
      | none =>
          if stop c then none
          else (search read stop text).map fun (skipped, a) => (c :: skipped, a)

/-! ### The first place -/

section

variable {read : Text → Option α} {stop : Char → Bool} {text skipped : Text} {c : Char} {a : α}

/-- A round of the search succeeds at once, or it passes a character and goes on. -/
theorem search_cons_eq_some_iff :
    search read stop (c :: text) = some (skipped, a) ↔
      (skipped = [] ∧ read (c :: text) = some a) ∨
        (read (c :: text) = none ∧ stop c = false ∧
          ∃ tail, skipped = c :: tail ∧ search read stop text = some (tail, a)) := by
  rw [search]
  cases hread : read (c :: text) with
  | some b =>
      simp only [Option.some.injEq, Prod.mk.injEq, reduceCtorEq, false_and, or_false, eq_comm]
  | none =>
    cases hstop : stop c with
    | true => simp
    | false =>
      simp only [Bool.false_eq_true, if_false, reduceCtorEq, and_false, false_or, true_and,
        Option.map_eq_some_iff]
      constructor
      · rintro ⟨⟨tail, b⟩, hsearch, hpair⟩
        obtain ⟨rfl, rfl⟩ := Prod.mk.inj hpair
        exact ⟨tail, rfl, hsearch⟩
      · rintro ⟨tail, rfl, hsearch⟩
        exact ⟨(tail, a), hsearch, rfl⟩

theorem search_cons_eq_none_iff :
    search read stop (c :: text) = none ↔
      read (c :: text) = none ∧ (stop c = true ∨ search read stop text = none) := by
  rw [search]
  cases read (c :: text) with
  | some b => simp
  | none => cases stop c <;> simp

/-- Nothing is read before a place behind the first character. -/
theorem fails_before_cons_iff {d : Char} :
    (∀ front back, c :: text = front ++ back → front.length < (d :: skipped).length →
        read back = none) ↔
      read (c :: text) = none ∧
        ∀ front back, text = front ++ back → front.length < skipped.length → read back = none := by
  constructor
  · intro h
    refine ⟨h [] (c :: text) rfl (by simp), fun front back hsplit hlength => ?_⟩
    exact h (c :: front) back (by rw [hsplit]; rfl) (by simpa using hlength)
  · rintro ⟨hnone, h⟩ front back hsplit hlength
    cases front with
    | nil =>
      obtain rfl : c :: text = back := hsplit
      exact hnone
    | cons x front => exact h front back (List.cons.inj hsplit).2 (by simpa using hlength)

theorem search_eq_some_iff :
    search read stop text = some (skipped, a) ↔
      ∃ rest, text = skipped ++ rest ∧ read rest = some a ∧ (∀ c ∈ skipped, stop c = false) ∧
        ∀ front back, text = front ++ back → front.length < skipped.length → read back = none := by
  induction text generalizing skipped with
  | nil =>
    constructor
    · intro h
      obtain ⟨b, hb, hpair⟩ := Option.map_eq_some_iff.mp h
      obtain ⟨rfl, rfl⟩ := Prod.mk.inj hpair
      exact ⟨[], rfl, hb, by simp, by simp⟩
    · rintro ⟨rest, htext, hread, -, -⟩
      obtain ⟨rfl, rfl⟩ := List.append_eq_nil_iff.mp htext.symm
      simp [search, hread]
  | cons c text ih =>
    -- Nothing is skipped just if the reading succeeds at once.
    rw [search_cons_eq_some_iff]
    cases skipped with
    | nil =>
      constructor
      · rintro (⟨-, hread⟩ | ⟨-, -, tail, heq, -⟩)
        · exact ⟨c :: text, rfl, hread, by simp, by simp⟩
        · cases heq
      · rintro ⟨rest, rfl, hread, -, -⟩
        exact .inl ⟨rfl, hread⟩
    | cons d skipped =>
      constructor
      · rintro (⟨heq, -⟩ | ⟨hnone, hstop, tail, heq, hsearch⟩)
        · cases heq
        · cases heq
          obtain ⟨rest, rfl, hread, hpass, hfirst⟩ := ih.mp hsearch
          exact ⟨rest, rfl, hread, List.forall_mem_cons.mpr ⟨hstop, hpass⟩,
            fails_before_cons_iff.mpr ⟨hnone, hfirst⟩⟩
      · rintro ⟨rest, htext, hread, hpass, hfirst⟩
        obtain ⟨rfl, hrest⟩ := List.cons.inj htext
        obtain ⟨hstop, hpass⟩ := List.forall_mem_cons.mp hpass
        obtain ⟨hnone, hfirst⟩ := fails_before_cons_iff.mp hfirst
        exact .inr ⟨hnone, hstop, skipped, rfl, ih.mpr ⟨rest, hrest, hread, hpass, hfirst⟩⟩

theorem search_eq_none_iff :
    search read stop text = none ↔
      ∀ front back, text = front ++ back → (∀ c ∈ front, stop c = false) → read back = none := by
  induction text with
  | nil => simp [search]
  | cons c text ih =>
    rw [search_cons_eq_none_iff]
    constructor
    · rintro ⟨hnone, hrest⟩ front back hsplit hpass
      cases front with
      | nil =>
        obtain rfl : c :: text = back := hsplit
        exact hnone
      | cons x front =>
        obtain ⟨rfl, htail⟩ := List.cons.inj hsplit
        obtain ⟨hstop, hpass⟩ := List.forall_mem_cons.mp hpass
        exact ih.mp (hrest.resolve_left (by simp [hstop])) front back htail hpass
    · intro h
      refine ⟨h [] (c :: text) rfl (by simp), ?_⟩
      cases hstop : stop c with
      | true => exact .inl rfl
      | false =>
        refine .inr (ih.mpr fun front back hsplit hpass => ?_)
        exact h (c :: front) back (by rw [hsplit]; rfl) (List.forall_mem_cons.mpr ⟨hstop, hpass⟩)

end

end Text

namespace Directive

/-! ### The readers of a directive as searches -/

/-- What follows a closing brace at which the text begins, if the directive can end there. -/
def readBrace? (closer : Text) : Text → Option Text
  | '}' :: text => readEnd? closer text
  | _ => none

/-- What follows a quote at which the text begins, if it can be the end of the path. -/
def readQuote? (closer : Text) : Text → Option (Option Text × Text)
  | c :: text => if isQuote c then readTail? closer text else none
  | [] => none

theorem readLiteral?_eq_search (closer text : Text) :
    readLiteral? closer text =
      (Text.search (readBrace? closer) (fun _ => false) text).map fun (inner, rest) =>
        (inner ++ ['}'], rest) := by
  induction text with
  | nil => rfl
  | cons c text ih =>
    by_cases hc : c = '}'
    · subst hc
      cases he : readEnd? closer text with
      | some rest => simp [readLiteral?, Text.search, readBrace?, he]
      | none => simp [readLiteral?, Text.search, readBrace?, he, ih, Function.comp_def]
    · have hb : readBrace? closer (c :: text) = none := by
        unfold readBrace?
        split
        · rename_i heq; exact absurd (List.cons.inj heq).1 hc
        · rfl
      simp [readLiteral?, Text.search, hb, hc, ih, Function.comp_def]

theorem readPath?_eq_search (closer text : Text) :
    readPath? closer text = Text.search (readQuote? closer) (fun c => c = '\n') text := by
  induction text with
  | nil => rfl
  | cons c text ih =>
    simp only [readPath?, Text.search, readQuote?]
    cases (if isQuote c = true then readTail? closer text else none) with
    | some tail => rfl
    | none =>
      by_cases hc : c = '\n'
      · simp [hc]
      · simp [hc, ih]

/-- The directive that begins behind `before`, given what is read from `rest`. -/
def ofRead (rest before : Text) (parts : Text × Option Text × Text) : Directive :=
  ⟨before, rest.take (rest.length - parts.2.2.length), parts.1, parts.2.1, parts.2.2⟩

theorem find?_eq_search (d : Delimiters) (document : Text) :
    find? d document =
      (Text.search (read? d) (fun _ => false) document).map fun (before, parts) =>
        ofRead (document.drop before.length) before parts := by
  induction document with
  | nil =>
    cases hr : read? d [] with
    | none => simp [find?, Text.search, hr]
    | some parts => simp [find?, Text.search, hr, ofRead]
  | cons c document ih =>
    cases hr : read? d (c :: document) with
    | none => simp [find?, Text.search, hr, ih, Function.comp_def, ofRead]
    | some parts => simp [find?, Text.search, hr, ofRead]

end Directive

end Splice
