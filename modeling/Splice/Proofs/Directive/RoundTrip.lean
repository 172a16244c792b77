import Splice.Proofs.Directive.Grammar
import Splice.Proofs.Json.Values

/-!
# Reading back written directives

A directive that is written with a path and the text of an object is read back if and only if it
cannot end at a closing brace of that text before the last one: the reader takes the first brace
behind which the directive can end, also one within a string.

* `Directive.encode`, `Directive.bare` — a directive with its path, with and without variables;
* `Directive.find?_bare` — without variables it is always read back;
* `Directive.EndsAtLastBrace` — when no earlier brace can end it; and
* `Directive.find?_encode_iff` — this is when it is read back.
-/

namespace Splice.Directive

/-- The directive with this path and these variables, in double quotes and with one blank. -/
def encode (d : Delimiters) (path literal : Text) : Text :=
  d.opener ++ keyword ++ '"' :: path ++ '"' :: ',' :: ' ' :: literal ++ ')' :: d.closer

/-- The directive with this path and without variables, in double quotes. -/
def bare (d : Delimiters) (path : Text) : Text :=
  d.opener ++ keyword ++ '"' :: path ++ '"' :: ')' :: d.closer

/-- Can the directive end at no closing brace of the literal before the last? -/
def EndsAtLastBrace (closer literal : Text) : Prop :=
  ∀ front behind blanks rest : Text, literal = front ++ '}' :: behind → '}' ∈ behind →
    AllBlank blanks → behind ++ ')' :: closer ≠ blanks ++ ')' :: (closer ++ rest)

/-! ### Lists of characters around a brace -/

theorem brace_split {a b x y : Text} (h : a ++ '}' :: x = b ++ '}' :: y) :
    (a = b ∧ x = y) ∨ (∃ middle, a = b ++ '}' :: middle ∧ y = middle ++ '}' :: x) ∨
      ∃ middle, b = a ++ '}' :: middle ∧ x = middle ++ '}' :: y := by
  rcases List.append_eq_append_iff.mp h with ⟨c, rfl, hc⟩ | ⟨c, rfl, hc⟩
  · cases c with
    | nil => exact .inl ⟨by simp, (List.cons.inj hc).2⟩
    | cons z middle =>
      obtain ⟨rfl, rfl⟩ := List.cons.inj hc
      exact .inr (.inr ⟨middle, rfl, rfl⟩)
  · cases c with
    | nil => exact .inl ⟨by simp, (List.cons.inj hc).2.symm⟩
    | cons z middle =>
      obtain ⟨rfl, rfl⟩ := List.cons.inj hc
      exact .inr (.inl ⟨middle, rfl, rfl⟩)

theorem not_mem_of_allBlank {text : Text} (h : AllBlank text) : '}' ∉ text :=
  fun hmem => absurd (h '}' hmem) (by decide)

theorem allBlank_of_allSpace {text : Text} (h : Json.AllSpace text) : AllBlank text := by
  intro c hc
  have := h c hc
  simp only [Json.isSpace, Bool.or_eq_true, decide_eq_true_eq] at this
  rcases this with ((rfl | rfl) | rfl) | rfl <;> decide

/-! ### What is read -/

/-- The path of a written directive is read up to its quote. -/
theorem readPath?_append {closer path tail : Text} {parts : Option Text × Text}
    (hpath : ∀ c ∈ path, isQuote c = false ∧ c ≠ '\n') (h : readTail? closer tail = some parts) :
    readPath? closer (path ++ '"' :: tail) = some (path, parts) := by
  rw [readPath?_eq_search]
  refine Text.search_eq_some_iff.mpr
    ⟨'"' :: tail, rfl, h, fun c hc => by simpa using (hpath c hc).2,
      fun front back hsplit hlen => ?_⟩
  -- A shorter path ends at one of the characters of `path`, which are no quotes.
  obtain ⟨c, hc⟩ | ⟨c, hc⟩ := List.append_eq_append_iff.mp hsplit
  · obtain ⟨rfl, -⟩ := hc
    simp only [List.length_append] at hlen
    omega
  · obtain ⟨rfl, rfl⟩ := hc
    cases c with
    | nil => simp at hlen
    | cons x c => simp [readQuote?, (hpath x (by simp)).1]

/-- A directive is read at its opening quote. -/
theorem read?_quote {d : Delimiters} {path tail : Text} {parts : Option Text × Text}
    (hpath : ∀ c ∈ path, isQuote c = false ∧ c ≠ '\n')
    (h : readTail? d.closer tail = some parts) :
    read? d (d.opener ++ keyword ++ '"' :: (path ++ '"' :: tail)) = some (path, parts) := by
  have hquote : isQuote '"' = true := by decide
  rw [read?, Text.dropLead?_eq_some_iff.mpr rfl]
  simp only
  rw [show Text.dropBlank ('"' :: _) = '"' :: _ from rfl]
  simp only [hquote, if_true]
  exact readPath?_append hpath h

/-- A directive without variables is read back as a whole. -/
theorem find?_bare {d : Delimiters} {path : Text}
    (hpath : ∀ c ∈ path, isQuote c = false ∧ c ≠ '\n') :
    find? d (bare d path) = some ⟨[], bare d path, path, none, []⟩ := by
  have htail : readTail? d.closer (')' :: d.closer) = some (none, []) := by
    have hend : readEnd? d.closer (')' :: d.closer) = some [] :=
      readEnd?_eq_some_iff.mpr ⟨[], nofun, by simp⟩
    simp [readTail?, hend]
  have hread : read? d (bare d path) = some (path, none, []) := by
    rw [show bare d path = d.opener ++ keyword ++ '"' :: (path ++ '"' :: ')' :: d.closer) by
      simp [bare]]
    exact read?_quote hpath htail
  unfold find?
  rw [hread]
  simp

/-- A written directive is found at the beginning, with the shortest literal. -/
theorem find?_encode {d : Delimiters} {path lead inner trail literal after : Text}
    (hpath : ∀ c ∈ path, isQuote c = false ∧ c ≠ '\n') (hlead : AllBlank lead)
    (hread : readLiteral? d.closer (inner ++ '}' :: (trail ++ ')' :: d.closer)) =
      some (literal, after)) :
    ∃ text, find? d (encode d path (lead ++ ('{' :: inner ++ ['}'] ++ trail))) =
        some ⟨[], text, path, some ('{' :: literal), after⟩ ∧
      encode d path (lead ++ ('{' :: inner ++ ['}'] ++ trail)) = text ++ after := by
  have htail : readTail? d.closer (',' :: ' ' ::
      (lead ++ '{' :: (inner ++ '}' :: (trail ++ ')' :: d.closer)))) =
      some (some ('{' :: literal), after) := by
    have hblank : AllBlank (' ' :: lead) := by
      intro c hc
      rcases List.mem_cons.mp hc with rfl | hc
      · decide
      · exact hlead c hc
    have hdrop := dropBlank_append hblank (c := '{') (by decide)
      (inner ++ '}' :: (trail ++ ')' :: d.closer))
    rw [List.cons_append] at hdrop
    simp only [readTail?, hdrop, hread]
    rfl
  have hwritten :
    encode d path (lead ++ ('{' :: inner ++ ['}'] ++ trail)) = (d.opener ++ keyword) ++
      '"' :: (path ++ '"' :: ',' :: ' ' ::
        (lead ++ '{' :: (inner ++ '}' :: (trail ++ ')' :: d.closer)))) := by
    simp [encode]
  have hfront : read? d (encode d path (lead ++ ('{' :: inner ++ ['}'] ++ trail))) =
      some (path, some ('{' :: literal), after) := by
    rw [hwritten]
    exact read?_quote hpath htail
  -- The reading succeeds at the front, so that the search skips nothing.
  obtain ⟨r, hr, -⟩ := read?_eq_some hfront
  refine ⟨r.written d, ?_, hr⟩
  unfold find?
  rw [hfront, hr]
  simp

/-- The literal that is read cannot be longer than the object. -/
theorem literal_le {closer inner trail short : Text} (htrail : AllBlank trail)
    (hshortest : ∀ short' behind,
      inner ++ '}' :: (trail ++ ')' :: closer) = short' ++ '}' :: behind →
        short'.length < short.length → readEnd? closer behind = none) :
    short.length ≤ inner.length := by
  refine Nat.le_of_not_lt fun hlt => ?_
  have hend := readEnd?_ne_none htrail closer []
  rw [List.append_nil] at hend
  exact hend (hshortest inner _ rfl hlt)

/-- If nothing is left behind the directive, the literal that is read is the object. -/
theorem eq_of_nothing_left {closer inner trail short trail' : Text} (htrail' : AllBlank trail')
    (h : inner ++ '}' :: (trail ++ ')' :: closer) = short ++ '}' :: (trail' ++ ')' :: closer))
    (hle : short.length ≤ inner.length) : short = inner := by
  rcases brace_split h with ⟨rfl, -⟩ | ⟨middle, rfl, hmiddle⟩ | ⟨middle, rfl, -⟩
  · rfl
  · -- Otherwise the last brace would be one of the blanks.
    have htail : trail' ++ ')' :: closer = (middle ++ '}' :: trail) ++ ')' :: closer := by
      simpa using hmiddle
    have hblanks := List.append_cancel_right htail
    exact absurd (by simp [hblanks]) (not_mem_of_allBlank htrail')
  · simp only [List.length_append, List.length_cons] at hle
    omega

theorem endsAtLastBrace_iff {closer lead inner trail short after : Text} (hlead : AllBlank lead)
    (htrail : AllBlank trail)
    (hread : readLiteral? closer (inner ++ '}' :: (trail ++ ')' :: closer)) =
      some (short ++ ['}'], after)) :
    EndsAtLastBrace closer (lead ++ ('{' :: inner ++ ['}'] ++ trail)) ↔
      short = inner ∧ after = [] := by
  obtain ⟨short, trail', htrail', heq, htext, hshortest⟩ := readLiteral?_eq_some_iff.mp hread
  obtain rfl := List.append_cancel_right heq
  have hle := literal_le htrail hshortest
  constructor
  · intro hends
    rcases brace_split htext with ⟨rfl, hrest⟩ | ⟨middle, rfl, hmiddle⟩ | ⟨middle, rfl, -⟩
    · obtain ⟨-, -, hcloser⟩ := blanks_append_inj htrail htrail' isBlank_paren isBlank_paren hrest
      exact ⟨rfl, by simpa using hcloser⟩
    · refine absurd ?_ (hends (lead ++ '{' :: short) (middle ++ '}' :: trail) trail' after
        (by simp) (by simp) htrail')
      simp [hmiddle]
    · simp only [List.length_append, List.length_cons] at hle
      omega
  · rintro ⟨rfl, rfl⟩ front behind blanks rest hliteral hmem hblanks hend
    have hnotTrail := not_mem_of_allBlank htrail
    -- The brace stands behind the opening one.
    obtain ⟨front', rfl⟩ : ∃ front', front = lead ++ '{' :: front' := by
      rcases List.append_eq_append_iff.mp hliteral with ⟨c, rfl, hc⟩ | ⟨c, rfl, hc⟩
      · cases c with
        | nil => exact absurd (List.cons.inj hc).1 (by decide)
        | cons x c =>
          obtain ⟨rfl, -⟩ := List.cons.inj hc
          exact ⟨c, rfl⟩
      · cases c with
        | nil => exact absurd (List.cons.inj hc).1 (by decide)
        | cons x c =>
          obtain ⟨rfl, -⟩ := List.cons.inj hc
          exact absurd (by simp) (not_mem_of_allBlank hlead)
    have hinner : short ++ '}' :: trail = front' ++ '}' :: behind := by simpa using hliteral
    rcases brace_split hinner with ⟨rfl, rfl⟩ | ⟨middle, rfl, rfl⟩ | ⟨middle, rfl, rfl⟩
    · exact hnotTrail hmem
    · have hnone := hshortest front' ((middle ++ '}' :: trail) ++ ')' :: closer)
        (by simp) (by simp)
      rw [hend] at hnone
      exact readEnd?_ne_none hblanks closer rest hnone
    · exact hnotTrail (by simp)

/-- A directive whose path has no quotes and no line feed, and whose literal is an object, is read
back as a whole, with its path and variables, if and only if it can end at no closing brace before
the last one. -/
theorem find?_encode_iff (d : Delimiters) {path literal : Text} {fields : Bindings Json}
    (hpath : ∀ c ∈ path, isQuote c = false ∧ c ≠ '\n')
    (hliteral : Json.parse literal = .ok (.obj fields)) :
    (∃ found, find? d (encode d path literal) = some found ∧ found.text = encode d path literal ∧
      found.start = 0 ∧ found.stop = (encode d path literal).length ∧ found.path = path ∧
      found.bindings = .ok fields) ↔ EndsAtLastBrace d.closer literal := by
  obtain ⟨lead, inner, trail, hlead, htrail, rfl, hobject⟩ := Json.parse_object hliteral
  have hlead := allBlank_of_allSpace hlead
  have htrail := allBlank_of_allSpace htrail
  -- Some literal is read, since the directive can end behind the object.
  obtain ⟨⟨read, after⟩, hread⟩ : ∃ parts,
      readLiteral? d.closer (inner ++ '}' :: (trail ++ ')' :: d.closer)) = some parts := by
    refine Option.ne_none_iff_exists'.mp fun hnone => ?_
    have hend := readEnd?_ne_none htrail d.closer []
    rw [List.append_nil] at hend
    exact hend (readLiteral?_eq_none_iff.mp hnone inner _ rfl)
  obtain ⟨text, hfind, hwhole⟩ := find?_encode hpath hlead hread
  obtain ⟨short, trail', htrail', rfl, htext, hshortest⟩ := readLiteral?_eq_some_iff.mp hread
  rw [hfind, endsAtLastBrace_iff hlead htrail hread]
  constructor
  · rintro ⟨found, hfound, htextFound, -⟩
    obtain rfl := Option.some.inj hfound
    obtain rfl : text = _ := htextFound
    have hafter : after = [] := by simpa using hwhole
    subst hafter
    rw [List.append_nil] at htext
    exact ⟨eq_of_nothing_left htrail' htext (literal_le htrail hshortest), rfl⟩
  · rintro ⟨rfl, rfl⟩
    rw [List.append_nil] at hwhole
    refine ⟨_, rfl, hwhole.symm, rfl, ?_, rfl, ?_⟩
    · rw [hwhole]
      simp [stop]
    · rw [List.cons_append] at hobject
      simp [bindings, hobject]

/-- Parentheses, quotes and braces within an object do not hinder it. -/
theorem find?_encode_nested :
    (∀ c ∈ ("p.html" : Text), isQuote c = false ∧ c ≠ '\n') ∧
      Json.parse "\x7b\"k\":\x7b\"l\":\")\x7d\\\"\"\x7d\x7d" =
        .ok (.obj [("k", .obj [("l", .str ")\x7d\"")])]) ∧
      EndsAtLastBrace ({} : Delimiters).closer
        "\x7b\"k\":\x7b\"l\":\")\x7d\\\"\"\x7d\x7d" := by
  have hpath : ∀ c ∈ ("p.html" : Text), isQuote c = false ∧ c ≠ '\n' := by
    simp [isQuote]
  have hliteral : Json.parse "\x7b\"k\":\x7b\"l\":\")\x7d\\\"\"\x7d\x7d" =
      .ok (.obj [("k", .obj [("l", .str ")\x7d\"")])]) := by cbv
  exact ⟨hpath, hliteral,
    (find?_encode_iff {} hpath hliteral).mp
      ⟨_, by cbv, by cbv, by cbv, by cbv, by cbv, by cbv⟩⟩

/-- A closing brace and a closing parenthesis within a string end the directive. -/
theorem find?_encode_cut :
    Json.parse "\x7b\"k\":\"\x7d)\"\x7d" = .ok (.obj [("k", .str "\x7d)")]) ∧
      ¬ ∃ found, find? {} (encode {} "a" "\x7b\"k\":\"\x7d)\"\x7d") = some found ∧
        found.text = encode {} "a" "\x7b\"k\":\"\x7d)\"\x7d" ∧ found.path = "a" ∧
        found.bindings = .ok [("k", .str "\x7d)")] := by
  refine ⟨by cbv, ?_⟩
  rintro ⟨found, hfound, htext, -⟩
  obtain rfl := Option.some.inj hfound
  revert htext
  decide

end Splice.Directive
