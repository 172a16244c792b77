import Splice.Proofs.Json.Numerals

/-!
# What the reader of values consumes

A value is read the same in every text that begins with it, with any fuel that suffices for its
length, unless it is a numeral that the text continues.

* `Json.ReadsValue` — this property of a text and a value;
* `Json.ReadsItems.cons`, `Json.readsField`, `Json.ReadsFields.cons`, … — such texts are put
  together from smaller ones;
* `Json.readValue_local` — every value that is read has it;
* `Json.parse_object` — a text that is an object stands between braces and white space, which may be
  dropped; and
* `Json.braces_unique` — no object continues another.
-/

namespace Splice.Json

/-! ### Fronts that are read the same in every text -/

/-- Is a value read from every text that begins with `used`? -/
structure ReadsValue (used : Text) (v : Json) : Prop where
  head : ∃ c tail, used = c :: tail ∧ c ≠ ']'
  braces : ∀ fields, v = .obj fields → ∃ inner, used = '{' :: inner ++ ['}']
  read : ∀ fuel rest, 2 * used.length ≤ fuel → (isNumeral v = true → EndsNumeral rest) →
    readValue fuel (used ++ rest) = .ok (v, rest)

/-- Are the items of an array with its closing bracket read from every text that begins with
`used`? -/
structure ReadsItems (used : Text) (items : List Json) : Prop where
  head : ∃ c tail, used = c :: tail ∧ c ≠ ']'
  read : ∀ fuel rest, 2 * used.length ≤ fuel → readItems fuel (used ++ rest) = .ok (items, rest)

/-- Are the fields of an object with its closing brace read from every text that begins with
`used`? -/
structure ReadsFields (used : Text) (fields : List (Text × Json)) : Prop where
  head : ∃ tail, used = '"' :: tail
  brace : ∃ inner, used = inner ++ ['}']
  read : ∀ fuel rest, 2 * used.length ≤ fuel → readFields fuel (used ++ rest) = .ok (fields, rest)

theorem endsNumeral_space {space : Text} (h : AllSpace space) {c : Char}
    (hc : continuesNumeral c = false) (rest : Text) : EndsNumeral (space ++ c :: rest) := by
  intro x hx
  cases space with
  | nil =>
    obtain rfl : c = x := Option.some.inj hx
    exact hc
  | cons s space =>
    obtain rfl : s = x := Option.some.inj hx
    have hs := h s (by simp)
    simp only [isSpace, Bool.or_eq_true, decide_eq_true_eq] at hs
    rcases hs with ((rfl | rfl) | rfl) | rfl <;> decide

/-! ### Fronts put together -/

section Together

variable {used more space space' body name : Text} {item v : Json} {items : List Json}
  {fields : List (Text × Json)}

/-- Is all of the space skipped in front of `used`, and nothing more? -/
def Skipped (space used : Text) : Prop := ∀ rest, skipSpace (space ++ (used ++ rest)) = used ++ rest

theorem ReadsItems.last (h : ReadsValue used item) (hspace : AllSpace space) :
    ReadsItems (used ++ (space ++ [']'])) [item] where
  head := by
    obtain ⟨c, tail, rfl, hc⟩ := h.head
    exact ⟨c, _, rfl, hc⟩
  read fuel rest hfuel := by
    simp only [List.length_append, List.length_cons, List.length_nil] at hfuel
    cases fuel with
    | zero => omega
    | succ fuel =>
      have hread := h.read fuel (space ++ ']' :: rest) (by omega)
        fun _ => endsNumeral_space hspace (by decide) _
      have hbracket : skipSpace (space ++ ']' :: rest) = ']' :: rest :=
        skipSpace_append hspace (by decide) rest
      have htext : used ++ (space ++ [']']) ++ rest = used ++ (space ++ ']' :: rest) := by simp
      rw [htext, readItems, hread]
      simp only [hbracket]

theorem ReadsItems.cons (h : ReadsValue used item) (hspace : AllSpace space)
    (hskipped : Skipped space' more) (hmore : ReadsItems more items) :
    ReadsItems (used ++ (space ++ ',' :: (space' ++ more))) (item :: items) where
  head := by
    obtain ⟨c, tail, rfl, hc⟩ := h.head
    exact ⟨c, _, rfl, hc⟩
  read fuel rest hfuel := by
    simp only [List.length_append, List.length_cons] at hfuel
    cases fuel with
    | zero => omega
    | succ fuel =>
      have hread := h.read fuel (space ++ ',' :: (space' ++ (more ++ rest))) (by omega)
        fun _ => endsNumeral_space hspace (by decide) _
      have hcomma : skipSpace (space ++ ',' :: (space' ++ (more ++ rest))) =
          ',' :: (space' ++ (more ++ rest)) := skipSpace_append hspace (by decide) _
      have hrest := hmore.read fuel rest (by omega)
      have htext : used ++ (space ++ ',' :: (space' ++ more)) ++ rest =
          used ++ (space ++ ',' :: (space' ++ (more ++ rest))) := by simp
      rw [htext, readItems, hread]
      simp only [hcomma, hskipped rest, hrest]
      rfl

/-- What is read behind a field. -/
def afterField (fuel : Nat) (name : Text) (v : Json) (text : Text) : Step (List (Text × Json)) :=
  match skipSpace text with
  | '}' :: rest => .ok ([(name, v)], rest)
  | ',' :: rest =>
      (readFields fuel (skipSpace rest)).map fun (fields, rest) => ((name, v) :: fields, rest)
  | rest => .error (.at .noComma rest)

/-- Is a field, from its name to the end of its value, read from every text that begins with `used`
and goes on with a brace or a comma? -/
structure ReadsField (used name : Text) (v : Json) : Prop where
  head : ∃ tail, used = '"' :: tail
  read : ∀ fuel space x after, AllSpace space → continuesNumeral x = false →
      2 * used.length ≤ fuel →
    readFields (fuel + 1) (used ++ (space ++ x :: after)) =
      afterField fuel name v (space ++ x :: after)

theorem readsField (hname : ReadsString body name) (hspace : AllSpace space)
    (hskipped : Skipped space' used) (h : ReadsValue used v) :
    ReadsField ('"' :: (body ++ '"' :: (space ++ ':' :: (space' ++ used)))) name v where
  head := ⟨_, rfl⟩
  read fuel behind x after hbehind hx hfuel := by
    simp only [List.length_append, List.length_cons] at hfuel
    have hcolon : skipSpace (space ++ ':' :: (space' ++ (used ++ (behind ++ x :: after)))) =
        ':' :: (space' ++ (used ++ (behind ++ x :: after))) := skipSpace_append hspace (by decide) _
    have hread := h.read fuel (behind ++ x :: after) (by omega) fun _ =>
        endsNumeral_space hbehind hx _
    have hbody : body.length < (body ++ '"' :: (space ++ ':' ::
        (space' ++ (used ++ (behind ++ x :: after))))).length + 1 := by
      simp only [List.length_append]
      omega
    have htext :
      '"' :: (body ++ '"' :: (space ++ ':' :: (space' ++ used))) ++ (behind ++ x :: after) =
        '"' :: (body ++ '"' :: (space ++ ':' :: (space' ++ (used ++ (behind ++ x :: after))))) := by
      simp
    rw [htext, readFields, hname _ _ _ hbody]
    simp only [hcolon, hskipped _, hread]
    rfl

theorem ReadsFields.last (h : ReadsField used name v) (hspace : AllSpace space) :
    ReadsFields (used ++ (space ++ ['}'])) [(name, v)] where
  head := by
    obtain ⟨tail, rfl⟩ := h.head
    exact ⟨_, rfl⟩
  brace := ⟨used ++ space, by simp⟩
  read fuel rest hfuel := by
    simp only [List.length_append, List.length_cons, List.length_nil] at hfuel
    cases fuel with
    | zero => omega
    | succ fuel =>
      have hread := h.read fuel space '}' rest hspace (by decide) (by omega)
      have hbrace : skipSpace (space ++ '}' :: rest) = '}' :: rest :=
        skipSpace_append hspace (by decide) rest
      have htext : used ++ (space ++ ['}']) ++ rest = used ++ (space ++ '}' :: rest) := by simp
      rw [htext, hread]
      simp only [afterField, hbrace]

theorem ReadsFields.cons (h : ReadsField used name v) (hspace : AllSpace space)
    (hskipped : Skipped space' more) (hmore : ReadsFields more fields) :
    ReadsFields (used ++ (space ++ ',' :: (space' ++ more))) ((name, v) :: fields) where
  head := by
    obtain ⟨tail, rfl⟩ := h.head
    exact ⟨_, rfl⟩
  brace := by
    obtain ⟨inner, rfl⟩ := hmore.brace
    exact ⟨used ++ (space ++ ',' :: (space' ++ inner)), by simp⟩
  read fuel rest hfuel := by
    simp only [List.length_append, List.length_cons] at hfuel
    cases fuel with
    | zero => omega
    | succ fuel =>
      have hread := h.read fuel space ',' (space' ++ (more ++ rest)) hspace (by decide) (by omega)
      have hcomma : skipSpace (space ++ ',' :: (space' ++ (more ++ rest))) =
          ',' :: (space' ++ (more ++ rest)) := skipSpace_append hspace (by decide) _
      have hrest := hmore.read fuel rest (by omega)
      have htext : used ++ (space ++ ',' :: (space' ++ more)) ++ rest =
          used ++ (space ++ ',' :: (space' ++ (more ++ rest))) := by simp
      rw [htext, hread]
      simp only [afterField, hcomma, hskipped rest, hrest]
      rfl

theorem readsValue_str (h : ReadsString body name) :
    ReadsValue ('"' :: (body ++ ['"'])) (.str name) where
  head := ⟨_, _, rfl, by decide⟩
  braces _ := nofun
  read fuel rest hfuel _ := by
    cases fuel with
    | zero => simp at hfuel
    | succ fuel =>
      have htext : '"' :: (body ++ ['"']) ++ rest = '"' :: (body ++ '"' :: rest) := by simp
      rw [htext, readValue, h _ _ _ (by simp only [List.length_append]; omega)]
      rfl

theorem readsValue_arr_nil (hspace : AllSpace space) :
    ReadsValue ('[' :: (space ++ [']'])) (.arr []) where
  head := ⟨_, _, rfl, by decide⟩
  braces _ := nofun
  read fuel rest hfuel _ := by
    cases fuel with
    | zero => simp at hfuel
    | succ fuel =>
      have hbracket : skipSpace (space ++ ']' :: rest) = ']' :: rest :=
        skipSpace_append hspace (by decide) rest
      have htext : '[' :: (space ++ [']']) ++ rest = '[' :: (space ++ ']' :: rest) := by simp
      rw [htext, readValue, hbracket]
      rfl

theorem ReadsItems.readsValue (h : ReadsItems used items) (hskipped : Skipped space used) :
    ReadsValue ('[' :: (space ++ used)) (.arr items) where
  head := ⟨_, _, rfl, by decide⟩
  braces _ := nofun
  read fuel rest hfuel _ := by
    simp only [List.length_append, List.length_cons] at hfuel
    cases fuel with
    | zero => omega
    | succ fuel =>
      have hitems := h.read fuel rest (by omega)
      have htext : '[' :: (space ++ used) ++ rest = '[' :: (space ++ (used ++ rest)) := by simp
      rw [htext, readValue, hskipped rest]
      obtain ⟨c, tail, rfl, hc⟩ := h.head
      split
      · rename_i heq
        exact absurd (List.cons.inj heq).1 hc
      · rw [hitems]
        rfl

theorem readsValue_obj_nil (hspace : AllSpace space) :
    ReadsValue ('{' :: (space ++ ['}'])) (.obj []) where
  head := ⟨_, _, rfl, by decide⟩
  braces _ _ := ⟨space, rfl⟩
  read fuel rest hfuel _ := by
    cases fuel with
    | zero => simp at hfuel
    | succ fuel =>
      have hbrace : skipSpace (space ++ '}' :: rest) = '}' :: rest :=
        skipSpace_append hspace (by decide) rest
      have htext : '{' :: (space ++ ['}']) ++ rest = '{' :: (space ++ '}' :: rest) := by simp
      rw [htext, readValue, hbrace]
      rfl

theorem ReadsFields.readsValue (h : ReadsFields used fields) (hskipped : Skipped space used) :
    ReadsValue ('{' :: (space ++ used)) (.obj (Bindings.ofList fields)) where
  head := ⟨_, _, rfl, by decide⟩
  braces _ _ := by
    obtain ⟨inner, rfl⟩ := h.brace
    exact ⟨space ++ inner, by simp⟩
  read fuel rest hfuel _ := by
    simp only [List.length_append, List.length_cons] at hfuel
    cases fuel with
    | zero => omega
    | succ fuel =>
      have hfields := h.read fuel rest (by omega)
      have htext : '{' :: (space ++ used) ++ rest = '{' :: (space ++ (used ++ rest)) := by simp
      rw [htext, readValue, hskipped rest]
      obtain ⟨tail, rfl⟩ := h.head
      split
      · rename_i heq
        exact absurd (List.cons.inj heq).1 (by decide)
      · rw [hfields]
        rfl

/-- A word or a numeral as a value. -/
theorem readsValue_atom {c : Char} {tail : Text} (hobj : ∀ fields, v ≠ .obj fields)
    (hc : isStructural c = false)
    (h : ∀ rest, (isNumeral v = true → EndsNumeral rest) →
      readAtom (c :: tail ++ rest) = .ok (v, rest)) : ReadsValue (c :: tail) v := by
  simp only [isStructural, Bool.or_eq_false_iff, decide_eq_false_iff_not] at hc
  obtain ⟨⟨⟨hquote, hbracket⟩, hbrace⟩, hclose⟩ := hc
  refine ⟨⟨c, tail, rfl, hclose⟩, fun fields hv => absurd hv (hobj fields), ?_⟩
  intro fuel rest hfuel hends
  cases fuel with
  | zero => simp at hfuel
  | succ fuel =>
    rw [List.cons_append, readValue]
    · exact h rest hends
    · exact fun _ heq => hquote (List.cons.inj heq).1
    · exact fun _ heq => hbracket (List.cons.inj heq).1
    · exact fun _ heq => hbrace (List.cons.inj heq).1

end Together

/-! ### One round of the recursion -/

section Step

variable {fuel : Nat}

theorem readItems_step
    (ihValue : ∀ {text v rest}, readValue fuel text = .ok (v, rest) →
      ∃ used, text = used ++ rest ∧ ReadsValue used v)
    (ihItems : ∀ {text items rest}, readItems fuel text = .ok (items, rest) →
      ∃ used, text = used ++ rest ∧ ReadsItems used items)
    {text : Text} {items : List Json} {rest : Text}
    (h : readItems (fuel + 1) text = .ok (items, rest)) :
    ∃ used, text = used ++ rest ∧ ReadsItems used items := by
  rw [readItems] at h
  split at h
  · exact absurd h (by simp)
  · rename_i item behind hvalue
    obtain ⟨value, rfl, hreads⟩ := ihValue hvalue
    split at h
    · -- the closing bracket
      rename_i after hskip
      obtain ⟨rfl, rfl⟩ := Prod.mk.inj (Except.ok.inj h)
      obtain ⟨space, hspace, rfl, -⟩ := skipSpace_before hskip
      exact ⟨_, by simp, .last hreads hspace⟩
    · -- a comma
      rename_i after hskip
      obtain ⟨⟨items, rest⟩, hitems, hpair⟩ := map_eq_ok_iff.mp h
      obtain ⟨rfl, rfl⟩ := Prod.mk.inj hpair
      obtain ⟨more, hmore, hreadsMore⟩ := ihItems hitems
      obtain ⟨d, tail, rfl, -⟩ := hreadsMore.head
      obtain ⟨space, hspace, rfl, -⟩ := skipSpace_before hskip
      obtain ⟨space', -, rfl, hskipped⟩ := skipSpace_replace hmore
      exact ⟨_, by simp, .cons hreads hspace hskipped hreadsMore⟩
    · exact absurd h (by simp)

theorem readFields_step
    (ihValue : ∀ {text v rest}, readValue fuel text = .ok (v, rest) →
      ∃ used, text = used ++ rest ∧ ReadsValue used v)
    (ihFields : ∀ {text fields rest}, readFields fuel text = .ok (fields, rest) →
      ∃ used, text = used ++ rest ∧ ReadsFields used fields)
    {text : Text} {fields : List (Text × Json)} {rest : Text}
    (h : readFields (fuel + 1) text = .ok (fields, rest)) :
    ∃ used, text = used ++ rest ∧ ReadsFields used fields := by
  unfold readFields at h
  split at h
  · rename_i inside
    split at h
    · exact absurd h (by simp)
    · rename_i name behindName hname
      obtain ⟨body, rfl, -, hsameName⟩ := readString_local hname
      split at h
      · rename_i behindColon hcolon
        obtain ⟨space₁, hspace₁, rfl, -⟩ := skipSpace_before hcolon
        split at h
        · exact absurd h (by simp)
        · rename_i v behind hvalue
          obtain ⟨value, hvalueText, hreads⟩ := ihValue hvalue
          obtain ⟨c, tail, rfl, -⟩ := hreads.head
          obtain ⟨space₂, -, rfl, hskipped₂⟩ := skipSpace_replace hvalueText
          have hfield := readsField hsameName hspace₁ hskipped₂ hreads
          split at h
          · -- the closing brace
            rename_i after hskip
            obtain ⟨rfl, rfl⟩ := Prod.mk.inj (Except.ok.inj h)
            obtain ⟨space, hspace, rfl, -⟩ := skipSpace_before hskip
            exact ⟨_, by simp, .last hfield hspace⟩
          · -- a comma
            rename_i after hskip
            obtain ⟨⟨fields, rest⟩, hfields, hpair⟩ := map_eq_ok_iff.mp h
            obtain ⟨rfl, rfl⟩ := Prod.mk.inj hpair
            obtain ⟨more, hmore, hreadsMore⟩ := ihFields hfields
            obtain ⟨tail', rfl⟩ := hreadsMore.head
            obtain ⟨space, hspace, rfl, -⟩ := skipSpace_before hskip
            obtain ⟨space', -, rfl, hskipped⟩ := skipSpace_replace hmore
            exact ⟨_, by simp, .cons hfield hspace hskipped hreadsMore⟩
          · exact absurd h (by simp)
      · exact absurd h (by simp)
  · exact absurd h (by simp)

theorem readValue_step
    (ihItems : ∀ {text items rest}, readItems fuel text = .ok (items, rest) →
      ∃ used, text = used ++ rest ∧ ReadsItems used items)
    (ihFields : ∀ {text fields rest}, readFields fuel text = .ok (fields, rest) →
      ∃ used, text = used ++ rest ∧ ReadsFields used fields)
    {text : Text} {v : Json} {rest : Text}
    (h : readValue (fuel + 1) text = .ok (v, rest)) :
    ∃ used, text = used ++ rest ∧ ReadsValue used v := by
  unfold readValue at h
  split at h
  · -- a string
    rename_i inside
    obtain ⟨⟨s, rest⟩, hread, hpair⟩ := map_eq_ok_iff.mp h
    obtain ⟨rfl, rfl⟩ := Prod.mk.inj hpair
    obtain ⟨body, rfl, -, hsame⟩ := readString_local hread
    exact ⟨_, by simp, readsValue_str hsame⟩
  · -- an array
    rename_i inside
    split at h
    · rename_i after hskip
      obtain ⟨rfl, rfl⟩ := Prod.mk.inj (Except.ok.inj h)
      obtain ⟨space, hspace, rfl, -⟩ := skipSpace_before hskip
      exact ⟨_, by simp, readsValue_arr_nil hspace⟩
    · obtain ⟨⟨items, rest⟩, hread, hpair⟩ := map_eq_ok_iff.mp h
      obtain ⟨rfl, rfl⟩ := Prod.mk.inj hpair
      obtain ⟨used, hused, hreads⟩ := ihItems hread
      obtain ⟨c, tail, rfl, -⟩ := hreads.head
      obtain ⟨space, -, rfl, hskipped⟩ := skipSpace_replace hused
      exact ⟨_, by simp, hreads.readsValue hskipped⟩
  · -- an object
    rename_i inside
    split at h
    · rename_i after hskip
      obtain ⟨rfl, rfl⟩ := Prod.mk.inj (Except.ok.inj h)
      obtain ⟨space, hspace, rfl, -⟩ := skipSpace_before hskip
      exact ⟨_, by simp, readsValue_obj_nil hspace⟩
    · obtain ⟨⟨fields, rest⟩, hread, hpair⟩ := map_eq_ok_iff.mp h
      obtain ⟨rfl, rfl⟩ := Prod.mk.inj hpair
      obtain ⟨used, hused, hreads⟩ := ihFields hread
      obtain ⟨tail, rfl⟩ := hreads.head
      obtain ⟨space, -, rfl, hskipped⟩ := skipSpace_replace hused
      exact ⟨_, by simp, hreads.readsValue hskipped⟩
  · -- a word or a numeral
    obtain ⟨hobj, c, used, hc, rfl, hsame⟩ := readAtom_local h
    exact ⟨c :: used, rfl, readsValue_atom hobj hc hsame⟩

end Step

/-! ### Every value that is read -/

theorem read_local (fuel : Nat) :
    (∀ {text v rest}, readValue fuel text = .ok (v, rest) →
      ∃ used, text = used ++ rest ∧ ReadsValue used v) ∧
    (∀ {text items rest}, readItems fuel text = .ok (items, rest) →
      ∃ used, text = used ++ rest ∧ ReadsItems used items) ∧
    ∀ {text fields rest}, readFields fuel text = .ok (fields, rest) →
      ∃ used, text = used ++ rest ∧ ReadsFields used fields := by
  induction fuel with
  | zero => exact ⟨fun h => absurd h (by simp [readValue]), fun h => absurd h (by simp [readItems]),
      fun h => absurd h (by simp [readFields])⟩
  | succ fuel ih =>
    obtain ⟨ihValue, ihItems, ihFields⟩ := ih
    exact ⟨readValue_step ihItems ihFields, readItems_step ihValue ihItems,
      readFields_step ihValue ihFields⟩

/-- A value that is read is read from every text with the same front. -/
theorem readValue_local {fuel : Nat} {text rest : Text} {v : Json}
    (h : readValue fuel text = .ok (v, rest)) : ∃ used, text = used ++ rest ∧ ReadsValue used v :=
  (read_local fuel).1 h

/-- A text that is read as a whole is a value with white space around it. -/
theorem exists_readsValue {text : Text} {v : Json} (h : parse text = .ok v) :
    ∃ lead used trail, AllSpace lead ∧ AllSpace trail ∧ text = lead ++ (used ++ trail) ∧
      ReadsValue used v := by
  unfold parse at h
  split at h
  · cases h
  · split at h
    · cases h
    · rename_i value rest hread
      split at h
      · rename_i hrest
        cases h
        obtain ⟨used, hused, hreads⟩ := readValue_local hread
        obtain ⟨lead, hlead, htext⟩ := eq_space_append text
        obtain ⟨trail, htrail, htrailText⟩ := eq_space_append rest
        rw [hrest, List.append_nil] at htrailText
        rw [hused, htrailText] at htext
        exact ⟨lead, used, trail, hlead, htrail, htext, hreads⟩
      · cases h

/-- An object stands between braces, with white space around it that may be dropped. -/
theorem parse_object {text : Text} {fields : Bindings Json} (h : parse text = .ok (.obj fields)) :
    ∃ lead inner trail, AllSpace lead ∧ AllSpace trail ∧
      text = lead ++ ('{' :: inner ++ ['}'] ++ trail) ∧
      parse ('{' :: inner ++ ['}']) = .ok (.obj fields) := by
  obtain ⟨lead, used, trail, hlead, htrail, htext, hreads⟩ := exists_readsValue h
  obtain ⟨inner, rfl⟩ := hreads.braces fields rfl
  refine ⟨lead, inner, trail, hlead, htrail, htext, ?_⟩
  have hvalue := hreads.read (2 * ('{' :: inner ++ ['}']).length + 2) [] (by omega)
    (fun hnum => absurd hnum (by simp [isNumeral]))
  rw [List.append_nil] at hvalue
  have hskip : skipSpace ('{' :: inner ++ ['}']) = '{' :: inner ++ ['}'] := rfl
  have hbom : Text.hasLead ['\uFEFF'] ('{' :: inner ++ ['}']) = false := by
    simp [Text.hasLead, Text.dropLead?]
  rw [parse, hbom, hskip, hvalue]
  rfl

/-! ### Objects at the beginning of a text -/

theorem isObject_of_readValue {fuel : Nat} {text rest : Text} {v : Json}
    (h : readValue fuel ('{' :: text) = .ok (v, rest)) : ∃ fields, v = .obj fields := by
  cases fuel with
  | zero => cases h
  | succ fuel =>
    simp only [readValue] at h
    split at h
    · cases h
      exact ⟨[], rfl⟩
    · obtain ⟨parts, -, hpair⟩ := map_eq_ok_iff.mp h
      exact ⟨Bindings.ofList parts.1, (Prod.mk.inj hpair).1.symm⟩

/-- A text from brace to brace that is read is an object, with nothing around it. -/
theorem readsValue_of_braces {inner : Text} {v : Json} (h : parse ('{' :: inner ++ ['}']) = .ok v) :
    ReadsValue ('{' :: inner ++ ['}']) v ∧ ∃ fields, v = .obj fields := by
  obtain ⟨lead, used, trail, hlead, htrail, htext, hreads⟩ := exists_readsValue h
  have hbraces : isSpace '{' = false ∧ isSpace '}' = false := by decide
  -- The braces stand at both ends, so that no blanks are around the value.
  obtain rfl : lead = [] := by
    cases lead with
    | nil => rfl
    | cons c lead =>
      obtain ⟨rfl, -⟩ := List.cons.inj htext
      simpa [hbraces.1] using hlead '{' (by simp)
  obtain rfl : trail = [] := by
    rcases trail.eq_nil_or_concat with rfl | ⟨front, c, rfl⟩
    · rfl
    · rw [List.nil_append, List.concat_eq_append, ← List.append_assoc] at htext
      obtain ⟨-, hc⟩ := List.append_inj' htext rfl
      obtain rfl := List.singleton_inj.mp hc
      simpa [hbraces.2] using htrail '}' (by simp)
  rw [List.nil_append, List.append_nil] at htext
  rw [htext]
  refine ⟨hreads, ?_⟩
  have hread := hreads.read (2 * used.length) ['}'] (Nat.le_refl _) (by
    intro _ c hc
    obtain rfl : '}' = c := Option.some.inj hc
    decide)
  rw [← htext] at hread
  exact isObject_of_readValue hread

/-- No object continues another: at the beginning of a text there is at most one. -/
theorem braces_unique {inner inner' rest rest' : Text} {v v' : Json}
    (h : parse ('{' :: inner ++ ['}']) = .ok v) (h' : parse ('{' :: inner' ++ ['}']) = .ok v')
    (heq : '{' :: inner ++ ['}'] ++ rest = '{' :: inner' ++ ['}'] ++ rest') :
    inner = inner' ∧ v = v' := by
  obtain ⟨hreads, fields, rfl⟩ := readsValue_of_braces h
  obtain ⟨hreads', fields', rfl⟩ := readsValue_of_braces h'
  let fuel := 2 * ('{' :: inner ++ ['}']).length + 2 * ('{' :: inner' ++ ['}']).length
  have hread := hreads.read fuel rest (Nat.le_add_right _ _) nofun
  have hread' := hreads'.read fuel rest' (Nat.le_add_left _ _) nofun
  rw [heq, hread'] at hread
  obtain ⟨hv, rfl⟩ := Prod.mk.inj (Except.ok.inj hread)
  have hinner : inner = inner' := by simpa using List.append_cancel_right heq
  exact ⟨hinner, hv.symm⟩

end Splice.Json
