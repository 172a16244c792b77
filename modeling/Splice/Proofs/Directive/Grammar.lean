import Splice.Proofs.Directive.Search

/-!
# The grammar of directives

A directive is found by a search that goes on at the first failure. Here the grammar is stated
without any search, as the texts that its parts make up:

* `Directive.Ending`, `Directive.Reading` — the parts of a directive, with the text they stand for;
* `Directive.Occurrence` — a reading at a place of a document;
* `Directive.read?_eq_some`, `Directive.read?_written` — the reader finds a reading wherever there
  is one, and of all the readings at a place the one with the shortest path and literal; and
* `Directive.find?_eq_first_occurrence` — the directive that is found is the first occurrence.
-/

namespace Splice.Directive

/-! ### Blanks -/

/-- Are all characters of a text blank? -/
def AllBlank (text : Text) : Prop := ∀ c ∈ text, Text.isBlank c = true

theorem isBlank_of_isQuote {c : Char} (h : isQuote c = true) : Text.isBlank c = false := by
  simp only [isQuote, Bool.or_eq_true, decide_eq_true_eq] at h
  rcases h with rfl | rfl <;> decide

theorem dropBlank_append {blanks : Text} (h : AllBlank blanks) {c : Char}
    (hc : Text.isBlank c = false) (rest : Text) :
    Text.dropBlank (blanks ++ c :: rest) = c :: rest := by
  rw [Text.dropBlank, List.dropWhile_append_of_pos h, List.dropWhile_cons_of_neg (by simp [hc])]

/-- What is dropped in front of a text are blanks. -/
theorem eq_blanks_append (text : Text) :
    ∃ blanks, AllBlank blanks ∧ text = blanks ++ Text.dropBlank text := by
  refine ⟨text.takeWhile Text.isBlank, List.all_eq_true.mp List.all_takeWhile, ?_⟩
  rw [Text.dropBlank, List.takeWhile_append_dropWhile]

/-- Blanks in front of a character that is not blank are determined by the whole text. -/
theorem blanks_append_inj {a b : Text} {c e : Char} {s t : Text} (ha : AllBlank a)
    (hb : AllBlank b) (hc : Text.isBlank c = false) (he : Text.isBlank e = false)
    (h : a ++ c :: s = b ++ e :: t) : a = b ∧ c = e ∧ s = t := by
  have hdrop : c :: s = e :: t := by
    rw [← dropBlank_append ha hc, h, dropBlank_append hb he]
  obtain ⟨rfl, rfl⟩ := List.cons.inj hdrop
  exact ⟨List.append_cancel_right h, rfl, rfl⟩

theorem isBlank_paren : Text.isBlank ')' = false := by decide

/-! ### What follows the path -/

/-- What may follow the path of a directive up to its closer. -/
@[ext]
structure Ending where
  /-- The object with the variables, if there is one: the blanks behind the comma, and what stands
  between the outer braces. -/
  object : Option (Text × Text)
  /-- The blanks in front of the closing parenthesis. -/
  trail : Text
  object_blank : ∀ v ∈ object, AllBlank v.1
  trail_blank : AllBlank trail

namespace Ending

/-- The object with its comma. -/
def objectText : Option (Text × Text) → Text
  | none => []
  | some (blanks, inner) => ',' :: blanks ++ '{' :: inner ++ ['}']

/-- The ending with the closer of the directive. -/
def written (closer : Text) (ending : Ending) : Text :=
  objectText ending.object ++ ending.trail ++ ')' :: closer

/-- The object from brace to brace. -/
def literal (ending : Ending) : Option Text :=
  ending.object.map fun (_, inner) => '{' :: inner ++ ['}']

/-- The number of characters from brace to brace. -/
def literalLength (ending : Ending) : Nat := (ending.literal.getD []).length

/-- An ending without variables. -/
def plain (trail : Text) (h : AllBlank trail) : Ending := ⟨none, trail, by simp, h⟩

/-- An ending with variables. -/
def binding (blanks inner trail : Text) (hb : AllBlank blanks) (ht : AllBlank trail) : Ending :=
  ⟨some (blanks, inner), trail, by simpa using hb, ht⟩

theorem written_plain {closer trail : Text} {h : AllBlank trail} :
    (plain trail h).written closer = trail ++ ')' :: closer := rfl

theorem written_binding {closer blanks inner trail : Text} {hb : AllBlank blanks}
    {ht : AllBlank trail} :
    (binding blanks inner trail hb ht).written closer =
      ',' :: (blanks ++ '{' :: (inner ++ '}' :: (trail ++ ')' :: closer))) := by
  simp [written, objectText, binding]

/-- An ending has variables or none. -/
theorem eq_plain_or_binding (ending : Ending) :
    (∃ trail h, ending = plain trail h) ∨
      ∃ blanks inner trail hb ht, ending = binding blanks inner trail hb ht := by
  obtain ⟨object, trail, hv, ht⟩ := ending
  cases object with
  | none => exact .inl ⟨trail, ht, rfl⟩
  | some v => exact .inr ⟨v.1, v.2, trail, hv v rfl, ht, rfl⟩

/-- Blanks do not begin with the comma of variables. -/
theorem plain_ne_binding {closer trail rest other : Text} (ht : AllBlank trail) :
    trail ++ ')' :: (closer ++ rest) ≠ ',' :: other := by
  intro h
  cases trail with
  | nil => exact absurd (List.cons.inj h).1 (by decide)
  | cons c trail =>
    obtain ⟨rfl, -⟩ := List.cons.inj h
    exact absurd (ht ',' (by simp)) (by decide)

end Ending

/-! ### Reading an ending -/

theorem readEnd?_eq_some_iff {closer text rest : Text} :
    readEnd? closer text = some rest ↔
      ∃ trail, AllBlank trail ∧ text = trail ++ ')' :: (closer ++ rest) := by
  constructor
  · intro h
    unfold readEnd? at h
    split at h
    · rename_i inside hdrop
      obtain ⟨trail, htrail, htext⟩ := eq_blanks_append text
      rw [hdrop, Text.dropLead?_eq_some_iff.mp h] at htext
      exact ⟨trail, htrail, htext⟩
    · exact absurd h (by simp)
  · rintro ⟨trail, htrail, rfl⟩
    rw [readEnd?, dropBlank_append htrail isBlank_paren]
    exact Text.dropLead?_eq_some_iff.mpr rfl

/-- Behind blanks and a closing parenthesis the closer is read. -/
theorem readEnd?_ne_none {trail : Text} (h : AllBlank trail) (closer rest : Text) :
    readEnd? closer (trail ++ ')' :: (closer ++ rest)) ≠ none := by
  rw [readEnd?_eq_some_iff.mpr ⟨trail, h, rfl⟩]
  simp

/-- The literal that is read is the shortest behind which the directive can end. -/
theorem readLiteral?_eq_some_iff {closer text literal rest : Text} :
    readLiteral? closer text = some (literal, rest) ↔
      ∃ inner trail, AllBlank trail ∧ literal = inner ++ ['}'] ∧
        text = inner ++ '}' :: (trail ++ ')' :: (closer ++ rest)) ∧
        ∀ inner' behind, text = inner' ++ '}' :: behind → inner'.length < inner.length →
          readEnd? closer behind = none := by
  rw [readLiteral?_eq_search, Option.map_eq_some_iff]
  constructor
  · rintro ⟨⟨inner, after⟩, hsearch, hpair⟩
    obtain ⟨rfl, rfl⟩ := Prod.mk.inj hpair
    obtain ⟨place, rfl, hread, -, hfirst⟩ := Text.search_eq_some_iff.mp hsearch
    unfold readBrace? at hread
    split at hread
    · rename_i behind
      obtain ⟨trail, htrail, rfl⟩ := readEnd?_eq_some_iff.mp hread
      exact ⟨inner, trail, htrail, rfl, rfl, fun inner' behind' => hfirst inner' ('}' :: behind')⟩
    · exact absurd hread (by simp)
  · rintro ⟨inner, trail, htrail, rfl, rfl, hfirst⟩
    refine ⟨(inner, rest), Text.search_eq_some_iff.mpr ⟨_, rfl, ?_, by simp, ?_⟩, rfl⟩
    · exact readEnd?_eq_some_iff.mpr ⟨trail, htrail, rfl⟩
    · intro front back hsplit hlen
      unfold readBrace?
      split
      · exact hfirst front _ hsplit hlen
      · rfl

theorem readLiteral?_eq_none_iff {closer text : Text} :
    readLiteral? closer text = none ↔
      ∀ inner behind, text = inner ++ '}' :: behind → readEnd? closer behind = none := by
  rw [readLiteral?_eq_search, Option.map_eq_none_iff, Text.search_eq_none_iff]
  constructor
  · intro h inner behind hsplit
    exact h inner ('}' :: behind) hsplit (by simp)
  · intro h front back hsplit _
    unfold readBrace?
    split
    · exact h front _ hsplit
    · rfl

theorem readTail?_eq_some {closer text after : Text} {literal : Option Text}
    (h : readTail? closer text = some (literal, after)) :
    ∃ ending : Ending, text = ending.written closer ++ after ∧ ending.literal = literal ∧
      ∀ (other : Ending) (rest : Text), text = other.written closer ++ rest →
        ending.literalLength ≤ other.literalLength := by
  unfold readTail? at h
  split at h
  · rename_i behindComma
    split at h
    · rename_i inside hdrop
      obtain ⟨⟨body, rest⟩, hread, hpair⟩ := Option.map_eq_some_iff.mp h
      obtain ⟨rfl, rfl⟩ := Prod.mk.inj hpair
      obtain ⟨blanks, hblanks, hcomma⟩ := eq_blanks_append behindComma
      -- The object ends at the first brace behind which the directive can end.
      obtain ⟨inner, trail, htrail, rfl, rfl, hfirst⟩ := readLiteral?_eq_some_iff.mp hread
      rw [hdrop] at hcomma
      subst hcomma
      refine ⟨.binding blanks inner trail hblanks htrail, ?_, rfl, ?_⟩
      · simp [Ending.written_binding]
      · intro other after' hother
        rcases other.eq_plain_or_binding with ⟨_, ht, rfl⟩ | ⟨blanks', inner', trail', hb, ht, rfl⟩
        · rw [Ending.written_plain, List.append_assoc] at hother
          exact absurd hother.symm (Ending.plain_ne_binding ht)
        · simp only [Ending.written_binding, List.cons_append, List.append_assoc,
            List.cons.injEq, true_and] at hother
          obtain ⟨-, -, hinner⟩ :=
            blanks_append_inj hblanks hb (by decide) (by decide) hother
          refine Nat.le_of_not_lt fun hlt =>
            readEnd?_ne_none ht closer _ (hfirst inner' _ hinner ?_)
          simpa [Ending.literalLength, Ending.literal, Ending.binding] using hlt
    · exact absurd h (by simp)
  · obtain ⟨rest, hread, hpair⟩ := Option.map_eq_some_iff.mp h
    obtain ⟨rfl, rfl⟩ := Prod.mk.inj hpair
    obtain ⟨trail, htrail, rfl⟩ := readEnd?_eq_some_iff.mp hread
    exact ⟨.plain trail htrail, by simp [Ending.written_plain], rfl,
      fun other _ _ => Nat.zero_le other.literalLength⟩

theorem readTail?_written (closer : Text) (ending : Ending) (after : Text) :
    readTail? closer (ending.written closer ++ after) ≠ none := by
  rcases ending.eq_plain_or_binding with ⟨trail, ht, rfl⟩ | ⟨blanks, inner, trail, hb, ht, rfl⟩
  · have hread : readEnd? closer ((Ending.plain trail ht).written closer ++ after) = some after :=
      readEnd?_eq_some_iff.mpr ⟨trail, ht, by simp [Ending.written_plain]⟩
    unfold readTail?
    split
    · rename_i other heq
      rw [Ending.written_plain, List.append_assoc] at heq
      exact absurd heq (Ending.plain_ne_binding ht)
    · simp [hread]
  · have hbrace : Text.isBlank '{' = false := by decide
    simp only [Ending.written_binding, List.cons_append, List.append_assoc, readTail?,
      dropBlank_append hb hbrace, ne_eq, Option.map_eq_none_iff, readLiteral?_eq_none_iff]
    intro hnone
    exact readEnd?_ne_none ht closer after (hnone inner _ rfl)

/-- The text and the length of its literal determine an ending. -/
theorem Ending.written_inj {closer after after' : Text} {ending other : Ending}
    (h : ending.written closer ++ after = other.written closer ++ after')
    (hlen : ending.literalLength = other.literalLength) : ending = other ∧ after = after' := by
  rcases ending.eq_plain_or_binding with ⟨trail, ht, rfl⟩ | ⟨blanks, inner, trail, hb, ht, rfl⟩ <;>
  rcases other.eq_plain_or_binding with ⟨trail', ht', rfl⟩ | ⟨blanks', inner', trail',
    hb', ht', rfl⟩
  · simp only [written_plain, List.append_assoc, List.cons_append] at h
    obtain ⟨rfl, -, hrest⟩ := blanks_append_inj ht ht' isBlank_paren isBlank_paren h
    exact ⟨rfl, List.append_cancel_left hrest⟩
  · rw [written_plain, written_binding, List.append_assoc] at h
    exact absurd h (plain_ne_binding ht)
  · rw [written_plain, written_binding, List.append_assoc trail'] at h
    exact absurd h.symm (plain_ne_binding ht')
  · simp only [written_binding, List.append_assoc, List.cons_append, List.cons.injEq,
      true_and] at h
    obtain ⟨rfl, -, hinner⟩ := blanks_append_inj hb hb' (by decide) (by decide) h
    obtain ⟨rfl, hbrace⟩ := List.append_inj hinner (by
      simpa [literalLength, literal, binding] using hlen)
    obtain ⟨rfl, -, hrest⟩ :=
      blanks_append_inj ht ht' isBlank_paren isBlank_paren (List.cons.inj hbrace).2
    exact ⟨rfl, List.append_cancel_left hrest⟩

/-! ### Directives -/

/-- The parts of a directive. -/
@[ext]
structure Reading where
  /-- The blanks behind the opening parenthesis. -/
  lead : Text
  /-- The quote in front of the path. -/
  opening : Char
  /-- The path, on one line. -/
  path : Text
  /-- The quote behind the path, which may be of the other kind. -/
  closing : Char
  /-- What follows that quote. -/
  ending : Ending
  lead_blank : AllBlank lead
  opening_isQuote : isQuote opening = true
  path_oneLine : '\n' ∉ path
  closing_isQuote : isQuote closing = true

namespace Reading

/-- The text of the directive. -/
def written (d : Delimiters) (r : Reading) : Text :=
  d.opener ++ keyword ++ r.lead ++ r.opening :: r.path ++ r.closing :: r.ending.written d.closer

theorem written_append (d : Delimiters) (r : Reading) (rest : Text) :
    r.written d ++ rest = (d.opener ++ keyword) ++
      (r.lead ++ r.opening :: (r.path ++ r.closing :: (r.ending.written d.closer ++ rest))) := by
  simp [written]

/-- The text of a directive is not empty, whatever its delimiters are. -/
theorem written_ne_nil (d : Delimiters) (r : Reading) : r.written d ≠ [] := by
  simp [written]

/-- Two readings of one text have the same quote in front of the path, with the same text behind
it. -/
theorem behind_quote {d : Delimiters} {r r' : Reading} {after after' : Text}
    (h : r.written d ++ after = r'.written d ++ after') :
    r.lead = r'.lead ∧ r.opening = r'.opening ∧
      r.path ++ r.closing :: (r.ending.written d.closer ++ after) =
        r'.path ++ r'.closing :: (r'.ending.written d.closer ++ after') := by
  rw [written_append, written_append] at h
  exact blanks_append_inj r.lead_blank r'.lead_blank (isBlank_of_isQuote r.opening_isQuote)
    (isBlank_of_isQuote r'.opening_isQuote) (List.append_cancel_left h)

/-- The text and the lengths of path and literal determine a reading. -/
theorem written_inj {d : Delimiters} {r r' : Reading} {after after' : Text}
    (h : r.written d ++ after = r'.written d ++ after')
    (hpath : r.path.length = r'.path.length)
    (hliteral : r.ending.literalLength = r'.ending.literalLength) : r = r' ∧ after = after' := by
  obtain ⟨hlead, hopening, hrest⟩ := behind_quote h
  obtain ⟨hpath, hclosing⟩ := List.append_inj hrest hpath
  obtain ⟨hclosing, hending⟩ := List.cons.inj hclosing
  obtain ⟨hending, hafter⟩ := Ending.written_inj hending hliteral
  exact ⟨Reading.ext hlead hopening hpath hclosing hending, hafter⟩

end Reading

/-- Of the readings of a text, the reader gives the one with the shortest path and, among these,
with the shortest literal. -/
theorem read?_eq_some {d : Delimiters} {text path after : Text} {literal : Option Text}
    (h : read? d text = some (path, literal, after)) :
    ∃ r : Reading, text = r.written d ++ after ∧ r.path = path ∧ r.ending.literal = literal ∧
      ∀ (other : Reading) (rest : Text), text = other.written d ++ rest →
        r.path.length ≤ other.path.length ∧
          (other.path.length = r.path.length →
            r.ending.literalLength ≤ other.ending.literalLength) := by
  unfold read? at h
  split at h
  · exact absurd h (by simp)
  · rename_i behind hlead
    rw [Text.dropLead?_eq_some_iff] at hlead
    split at h
    · rename_i opening inside hdrop
      split at h
      · rename_i hopening
        obtain ⟨lead, hblank, hbehind⟩ := eq_blanks_append behind
        rw [hdrop] at hbehind
        subst hbehind
        rw [readPath?_eq_search] at h
        -- The path ends at the first quote behind which the rest of a directive can be read.
        obtain ⟨place, rfl, hread, hline, hfirst⟩ := Text.search_eq_some_iff.mp h
        unfold readQuote? at hread
        split at hread
        · rename_i closing tail
          split at hread
          · rename_i hclosing
            obtain ⟨ending, rfl, rfl, hshortest⟩ := readTail?_eq_some hread
            have hpath : '\n' ∉ path := fun hmem => by simpa using hline '\n' hmem
            let r : Reading :=
              ⟨lead, opening, path, closing, ending, hblank, hopening, hpath, hclosing⟩
            have htext : text = r.written d ++ after := by
              rw [Reading.written_append]; exact hlead
            refine ⟨r, htext, rfl, rfl, fun other rest hother => ?_⟩
            obtain ⟨-, -, hbehind⟩ := Reading.behind_quote (htext.symm.trans hother)
            constructor
            · -- A reading with a shorter path would have been found at its quote.
              refine Nat.le_of_not_lt fun hlt => ?_
              have hnone := hfirst other.path _ hbehind hlt
              simp only [readQuote?, other.closing_isQuote, if_true] at hnone
              exact readTail?_written _ _ _ hnone
            · intro hlen
              obtain ⟨-, hquote⟩ := List.append_inj hbehind hlen.symm
              exact hshortest other.ending rest (List.cons.inj hquote).2
          · exact absurd hread (by simp)
        · exact absurd hread (by simp)
      · exact absurd h (by simp)
    · exact absurd h (by simp)

/-- Wherever there is a reading, the reader finds one. -/
theorem read?_written (d : Delimiters) (r : Reading) (after : Text) :
    read? d (r.written d ++ after) ≠ none := by
  have hlead := Text.dropLead?_eq_some_iff.mpr (Reading.written_append d r after)
  have hquote := isBlank_of_isQuote r.opening_isQuote
  simp only [read?, hlead, dropBlank_append r.lead_blank hquote, r.opening_isQuote, if_true,
    readPath?_eq_search, ne_eq, Text.search_eq_none_iff]
  intro hnone
  have := hnone r.path _ rfl fun c hc => decide_eq_false fun hn => r.path_oneLine (hn ▸ hc)
  simp only [readQuote?, r.closing_isQuote, if_true] at this
  exact readTail?_written _ _ _ this

/-! ### Occurrences in a document -/

/-- A reading of the text from some place of a document on. -/
structure Occurrence (d : Delimiters) (document : Text) where
  /-- The number of characters in front of the directive. -/
  start : Nat
  /-- The parts of the directive. -/
  reading : Reading
  /-- The document behind the directive. -/
  after : Text
  fits : document.drop start = reading.written d ++ after

namespace Occurrence

variable {d : Delimiters} {document : Text}

/-- Is this the first occurrence? It begins before all others. Of the readings at its place it has
the shortest path and, among those with this path, the shortest literal. -/
structure IsFirst (o : Occurrence d document) : Prop where
  start_le : ∀ other : Occurrence d document, o.start ≤ other.start
  path_le : ∀ other : Occurrence d document, other.start = o.start →
    o.reading.path.length ≤ other.reading.path.length
  literal_le : ∀ other : Occurrence d document, other.start = o.start →
    other.reading.path.length = o.reading.path.length →
    o.reading.ending.literalLength ≤ other.reading.ending.literalLength

/-- The directive with the document around it. -/
def directive (o : Occurrence d document) : Directive where
  before := document.take o.start
  text := o.reading.written d
  path := o.reading.path
  literal := o.reading.ending.literal
  after := o.after

/-- An occurrence begins within the document. -/
theorem start_lt (o : Occurrence d document) : o.start < document.length := by
  refine Nat.lt_of_not_le fun hle => o.reading.written_ne_nil d ?_
  have hfits := o.fits
  rw [List.drop_of_length_le hle] at hfits
  exact (List.append_eq_nil_iff.mp hfits.symm).1

theorem directive_start (o : Occurrence d document) : o.directive.start = o.start := by
  simp [directive, Directive.start, Nat.le_of_lt o.start_lt]

theorem directive_stop (o : Occurrence d document) :
    o.directive.stop = o.start + (o.reading.written d).length := by
  have := o.directive_start
  simp only [Directive.start, stop] at this ⊢
  rw [this]
  rfl

/-- The document is the directive with the text around it. -/
theorem split (o : Occurrence d document) :
    document = o.directive.before ++ (o.directive.text ++ o.directive.after) := by
  have h := List.take_append_drop o.start document
  rw [o.fits] at h
  exact h.symm

/-- There is at most one first occurrence. -/
theorem IsFirst.unique {o o' : Occurrence d document} (h : o.IsFirst) (h' : o'.IsFirst) :
    o = o' := by
  have hstart := Nat.le_antisymm (h.start_le o') (h'.start_le o)
  have hpath := Nat.le_antisymm (h.path_le o' hstart.symm) (h'.path_le o hstart)
  have hliteral := Nat.le_antisymm (h.literal_le o' hstart.symm hpath.symm)
    (h'.literal_le o hstart hpath)
  have htext : o.reading.written d ++ o.after = o'.reading.written d ++ o'.after := by
    rw [← o.fits, ← o'.fits, hstart]
  obtain ⟨hreading, hafter⟩ := Reading.written_inj htext hpath hliteral
  cases o
  cases o'
  simp_all

end Occurrence

theorem find?_eq_none_iff {d : Delimiters} {document : Text} :
    find? d document = none ↔ ¬ Nonempty (Occurrence d document) := by
  rw [find?_eq_search, Option.map_eq_none_iff, Text.search_eq_none_iff]
  constructor
  · rintro h ⟨o⟩
    have hnone := h _ _ (List.take_append_drop o.start document).symm (by simp)
    rw [o.fits] at hnone
    exact read?_written d o.reading o.after hnone
  · intro h front back hsplit _
    cases hread : read? d back with
    | none => rfl
    | some parts =>
      obtain ⟨r, htext, -⟩ := read?_eq_some hread
      exact absurd ⟨front.length, r, parts.2.2, by rw [hsplit, List.drop_left, htext]⟩ h

/-- What is found is the first occurrence. -/
theorem exists_first_of_find? {d : Delimiters} {document : Text} {found : Directive}
    (h : find? d document = some found) :
    ∃ o : Occurrence d document, o.IsFirst ∧ found = o.directive := by
  rw [find?_eq_search] at h
  obtain ⟨⟨before, path, literal, after⟩, hsearch, hfound⟩ := Option.map_eq_some_iff.mp h
  obtain ⟨place, rfl, hread, -, hfirst⟩ := Text.search_eq_some_iff.mp hsearch
  obtain ⟨r, rfl, rfl, rfl, hshortest⟩ := read?_eq_some hread
  let o : Occurrence d (before ++ (r.written d ++ after)) :=
    ⟨before.length, r, after, by rw [List.drop_left]⟩
  -- A reading at the same place is a reading of the same text.
  have hsame (other : Occurrence d (before ++ (r.written d ++ after)))
      (hstart : other.start = o.start) :
      r.written d ++ after = other.reading.written d ++ other.after := by
    rw [← other.fits, hstart, List.drop_left]
  refine ⟨o, ⟨fun other => ?_, fun other hstart => ?_, fun other hstart hlen => ?_⟩, ?_⟩
  · refine Nat.le_of_not_lt fun hlt => ?_
    have hnone := hfirst _ _ (List.take_append_drop other.start _).symm
      (Nat.lt_of_le_of_lt (List.length_take_le _ _) hlt)
    rw [other.fits] at hnone
    exact read?_written d other.reading other.after hnone
  · exact (hshortest other.reading other.after (hsame other hstart)).1
  · exact (hshortest other.reading other.after (hsame other hstart)).2 hlen
  · rw [← hfound]
    simp [ofRead, Occurrence.directive, o]

/-- The first occurrence is found. -/
theorem find?_of_isFirst {d : Delimiters} {document : Text} {o : Occurrence d document}
    (h : o.IsFirst) : find? d document = some o.directive := by
  cases hfind : find? d document with
  | none => exact absurd ⟨o⟩ (find?_eq_none_iff.mp hfind)
  | some found =>
    obtain ⟨o', hfirst', rfl⟩ := exists_first_of_find? hfind
    rw [hfirst'.unique h]

/-- A document without any reading of a directive has none to be found. In every other document the
directive that is found is that of the one first occurrence, with its text, its place, its path and
its literal. -/
theorem find?_eq_first_occurrence (d : Delimiters) (document : Text) :
    (find? d document = none ↔
      ∀ (start : Nat) (r : Reading) (after : Text), document.drop start ≠ r.written d ++ after) ∧
    ∀ found : Directive, find? d document = some found ↔
      ∃ o : Occurrence d document, o.IsFirst ∧ (∀ other, other.IsFirst → other = o) ∧
        found = o.directive ∧ found.start = o.start ∧
        found.stop = o.start + (o.reading.written d).length ∧
        document = found.before ++ (found.text ++ found.after) := by
  refine ⟨?_, fun found => ⟨fun h => ?_, ?_⟩⟩
  · rw [find?_eq_none_iff]
    exact ⟨fun h start r after hfits => h ⟨start, r, after, hfits⟩,
      fun h ⟨o⟩ => h o.start o.reading o.after o.fits⟩
  · obtain ⟨o, hfirst, rfl⟩ := exists_first_of_find? h
    exact ⟨o, hfirst, fun other hother => hother.unique hfirst, rfl, o.directive_start,
      o.directive_stop, o.split⟩
  · rintro ⟨o, hfirst, -, rfl, -⟩
    exact find?_of_isFirst hfirst

end Splice.Directive
