import Splice.Proofs.Json.Strings

/-!
# What the readers of numerals and words consume

A numeral goes on as long as it can. It is read the same before every text that does not continue
it.

* `Json.EndsNumeral` — the texts that continue no numeral;
* `Json.HasParts`, `Json.numberOf` — the parts of a numeral and the number they make;
* `Json.readNumber_local` — a numeral is read up to its last character; and
* `Json.readAtom_local` — the same for words and numerals.
-/

namespace Splice.Json

/-! ### Numerals -/

/-- Is the value a number? -/
def isNumeral : Json → Bool
  | .int _ | .float _ => true
  | _ => false

/-- Can the character continue a numeral? -/
def continuesNumeral (c : Char) : Bool := c.isDigit || c = '.' || c = 'e' || c = 'E'

/-- Does the text begin with no character that could continue a numeral? -/
def EndsNumeral (text : Text) : Prop := ∀ c ∈ text.head?, continuesNumeral c = false

/-- Does the text begin with no digit? -/
def EndsDigits (text : Text) : Prop := ∀ c ∈ text.head?, c.isDigit = false

theorem EndsNumeral.endsDigits {text : Text} (h : EndsNumeral text) : EndsDigits text := by
  intro c hc
  have := h c hc
  simp only [continuesNumeral, Bool.or_eq_false_iff] at this
  exact this.1.1.1

theorem endsDigits_cons {c : Char} (h : c.isDigit = false) (text : Text) :
    EndsDigits (c :: text) := by
  intro x hx
  obtain rfl : c = x := Option.some.inj hx
  exact h

theorem spanDigits_append {digits rest : Text} (hd : ∀ c ∈ digits, c.isDigit = true)
    (hr : EndsDigits rest) : spanDigits (digits ++ rest) = (digits, rest) := by
  rw [spanDigits, List.takeWhile_append_of_pos hd, List.dropWhile_append_of_pos hd]
  cases rest with
  | nil => simp
  | cons c rest =>
    have hc : c.isDigit = false := hr c rfl
    simp [hc]

theorem eq_of_spanDigits {text digits rest : Text} (h : spanDigits text = (digits, rest)) :
    text = digits ++ rest ∧ ∀ c ∈ digits, c.isDigit = true := by
  obtain ⟨rfl, rfl⟩ := Prod.mk.inj h
  exact ⟨List.takeWhile_append_dropWhile.symm, List.all_eq_true.mp List.all_takeWhile⟩

theorem spanFraction?_local {text digits rest : Text}
    (h : spanFraction? text = some (digits, rest)) :
    text = '.' :: digits ++ rest ∧
      ∀ rest', EndsDigits rest' →
        spanFraction? ('.' :: digits ++ rest') = some (digits, rest') := by
  unfold spanFraction? at h
  split at h
  · rename_i inside
    cases hspan : spanDigits inside with
    | mk found after =>
      rw [hspan] at h
      dsimp only at h
      split at h
      · exact absurd h (by simp)
      · rename_i hempty
        obtain ⟨rfl, rfl⟩ := Prod.mk.inj (Option.some.inj h)
        obtain ⟨rfl, hdigits⟩ := eq_of_spanDigits hspan
        refine ⟨rfl, fun rest' hrest' => ?_⟩
        simp only [List.cons_append, spanFraction?, spanDigits_append hdigits hrest']
        rw [if_neg hempty]
  · exact absurd h (by simp)

theorem spanSign_local {text behind : Text} {negative : Bool} {c : Char}
    (h : spanSign text = (negative, c :: behind)) (hc : c.isDigit = true) :
    ∃ sign, text = sign ++ c :: behind ∧
      ∀ behind', spanSign (sign ++ c :: behind') = (negative, c :: behind') := by
  unfold spanSign at h
  split at h
  · obtain ⟨rfl, rfl⟩ := Prod.mk.inj h
    exact ⟨['-'], rfl, fun _ => rfl⟩
  · obtain ⟨rfl, rfl⟩ := Prod.mk.inj h
    exact ⟨['+'], rfl, fun _ => rfl⟩
  · obtain ⟨rfl, rfl⟩ := Prod.mk.inj h
    refine ⟨[], rfl, fun behind' => ?_⟩
    unfold spanSign
    split
    · rename_i heq
      rw [(List.cons.inj heq).1] at hc
      exact absurd hc (by decide)
    · rename_i heq
      rw [(List.cons.inj heq).1] at hc
      exact absurd hc (by decide)
    · rfl

theorem spanExponent?_local {text rest : Text} {n : Int} (h : spanExponent? text = some (n, rest)) :
    ∃ e used, (e = 'e' ∨ e = 'E') ∧ text = e :: used ++ rest ∧
      ∀ rest', EndsDigits rest' → spanExponent? (e :: used ++ rest') = some (n, rest') := by
  cases text with
  | nil => exact absurd h (by simp [spanExponent?])
  | cons e text =>
    unfold spanExponent? at h
    dsimp only at h
    split at h
    · rename_i he
      cases hsign : spanSign text with
      | mk negative behind =>
        cases hspan : spanDigits behind with
        | mk digits after =>
          simp only [hsign, hspan] at h
          split at h
          · exact absurd h (by simp)
          · rename_i hempty
            obtain ⟨rfl, rfl⟩ := Prod.mk.inj (Option.some.inj h)
            obtain ⟨rfl, hdigits⟩ := eq_of_spanDigits hspan
            cases digits with
            | nil => exact absurd rfl hempty
            | cons c digits =>
              -- The first digit shows where the sign ends.
              obtain ⟨sign, rfl, hlocal⟩ := spanSign_local hsign (hdigits c (by simp))
              refine ⟨e, sign ++ c :: digits, he, by simp, fun rest' hrest' => ?_⟩
              have hsign' : spanSign (sign ++ c :: digits ++ rest') =
                  (negative, c :: digits ++ rest') := by
                rw [List.append_assoc]
                exact hlocal (digits ++ rest')
              rw [List.cons_append, spanExponent?, if_pos he]
              simp only [hsign', spanDigits_append hdigits hrest']
              rw [if_neg hempty]
    · exact absurd h (by simp)

theorem spanWhole?_local {text whole rest : Text} (h : spanWhole? text = some (whole, rest)) :
    ∃ c digits, whole = c :: digits ∧ c.isDigit = true ∧ text = whole ++ rest ∧
      ∀ rest', EndsDigits rest' → spanWhole? (whole ++ rest') = some (whole, rest') := by
  unfold spanWhole? at h
  split at h
  · obtain ⟨rfl, rfl⟩ := Prod.mk.inj (Option.some.inj h)
    exact ⟨'0', [], rfl, by decide, rfl, fun _ _ => rfl⟩
  · rename_i c inside hzero
    split at h
    · rename_i hc
      obtain ⟨htext, hdigits⟩ := eq_of_spanDigits (Option.some.inj h)
      cases whole with
      | nil =>
        have hspan := Option.some.inj h
        simp [spanDigits, hc] at hspan
      | cons d digits =>
        obtain ⟨rfl, rfl⟩ := List.cons.inj htext
        refine ⟨c, digits, rfl, hc, rfl, fun rest' hrest' => ?_⟩
        rw [List.cons_append, spanWhole?]
        · rw [if_pos hc, ← List.cons_append, spanDigits_append hdigits hrest']
        · exact hzero
    · exact absurd h (by simp)
  · exact absurd h (by simp)

theorem spanFraction?_eq_none {c : Char} (hc : c ≠ '.') (text : Text) :
    spanFraction? (c :: text) = none := by
  unfold spanFraction?
  split
  · rename_i heq
    exact absurd (List.cons.inj heq).1 hc
  · rfl

theorem spanExponent?_eq_none {text : Text} (h : EndsNumeral text) : spanExponent? text = none := by
  cases text with
  | nil => rfl
  | cons c text =>
    have hc := h c rfl
    simp only [continuesNumeral, Bool.or_eq_false_iff, decide_eq_false_iff_not] at hc
    simp [spanExponent?, hc.1.2, hc.2]

/-- A part that may be missing, and what follows it. -/
def spanOptional {α : Type} (span? : Text → Option (α × Text)) (text : Text) : Option α × Text :=
  match span? text with
  | some (part, rest) => (some part, rest)
  | none => (none, text)

theorem isNone_eq_spanOptional {α : Type} (span? : Text → Option (α × Text)) (text : Text) :
    (span? text).isNone = (spanOptional span? text).1.isNone := by
  unfold spanOptional
  cases span? text <;> rfl

theorem getD_eq_spanOptional {α : Type} (span? : Text → Option (α × Text)) (text : Text)
    (default : α) :
    (span? text).getD (default, text) =
      ((spanOptional span? text).1.getD default, (spanOptional span? text).2) := by
  unfold spanOptional
  cases span? text <;> rfl

/-- The fraction of a numeral, which may be missing, uses the same characters before any text that
does not continue it. -/
theorem fraction_local {text rest : Text} {fraction? : Option Text}
    (h : spanOptional spanFraction? text = (fraction?, rest)) :
    ∃ used, text = used ++ rest ∧ (used = [] ∨ ∃ tail, used = '.' :: tail) ∧
      ∀ rest', EndsDigits rest' → (∀ tail, rest' ≠ '.' :: tail) →
        spanOptional spanFraction? (used ++ rest') = (fraction?, rest') := by
  unfold spanOptional at h
  split at h
  · rename_i digits behind hspan
    obtain ⟨rfl, rfl⟩ := Prod.mk.inj h
    obtain ⟨rfl, hlocal⟩ := spanFraction?_local hspan
    refine ⟨'.' :: digits, rfl, .inr ⟨digits, rfl⟩, fun rest' hrest' _ => ?_⟩
    rw [spanOptional, hlocal rest' hrest']
  · obtain ⟨rfl, rfl⟩ := Prod.mk.inj h
    refine ⟨[], rfl, .inl rfl, fun rest' _ hpoint => ?_⟩
    have hnone : spanFraction? rest' = none := by
      cases rest' with
      | nil => rfl
      | cons c tail => exact spanFraction?_eq_none (fun hc => hpoint tail (by rw [hc])) tail
    rw [List.nil_append, spanOptional, hnone]

/-- The exponent of a numeral, which may be missing, uses the same characters before any text that
does not continue it. -/
theorem exponent_local {text rest : Text} {exponent? : Option Int}
    (h : spanOptional spanExponent? text = (exponent?, rest)) :
    ∃ used, text = used ++ rest ∧ (used = [] ∨ ∃ e tail, used = e :: tail ∧ (e = 'e' ∨ e = 'E')) ∧
      ∀ rest', EndsNumeral rest' → spanOptional spanExponent? (used ++ rest') =
        (exponent?, rest') := by
  unfold spanOptional at h
  split at h
  · rename_i n behind hspan
    obtain ⟨rfl, rfl⟩ := Prod.mk.inj h
    obtain ⟨e, used, he, rfl, hlocal⟩ := spanExponent?_local hspan
    refine ⟨e :: used, rfl, .inr ⟨e, used, rfl, he⟩, fun rest' hrest' => ?_⟩
    rw [spanOptional, hlocal rest' hrest'.endsDigits]
  · obtain ⟨rfl, rfl⟩ := Prod.mk.inj h
    refine ⟨[], rfl, .inl rfl, fun rest' hrest' => ?_⟩
    rw [List.nil_append, spanOptional, spanExponent?_eq_none hrest']

/-- What begins with an exponent, or ends a numeral, begins with neither a digit nor a point. -/
theorem ends_of_exponent {exponent rest : Text}
    (h : exponent = [] ∨ ∃ e tail, exponent = e :: tail ∧ (e = 'e' ∨ e = 'E'))
    (hrest : EndsNumeral rest) :
    EndsDigits (exponent ++ rest) ∧ ∀ tail, exponent ++ rest ≠ '.' :: tail := by
  rcases h with rfl | ⟨e, digits, rfl, he⟩
  · refine ⟨hrest.endsDigits, fun tail heq => ?_⟩
    have hpoint := hrest '.' (by rw [← List.nil_append rest, heq]; rfl)
    exact absurd hpoint (by decide)
  · have hletter : e.isDigit = false ∧ e ≠ '.' := by
      rcases he with rfl | rfl <;> decide
    exact ⟨endsDigits_cons hletter.1 _, fun _ heq => hletter.2 (List.cons.inj heq).1⟩

/-- The text begins with a numeral of these parts, without its sign. -/
def HasParts (text whole : Text) (fraction? : Option Text) (exponent? : Option Int) (rest : Text) :
    Prop :=
  ∃ behind behind', spanWhole? text = some (whole, behind) ∧
    spanOptional spanFraction? behind = (fraction?, behind') ∧
    spanOptional spanExponent? behind' = (exponent?, rest)

/-- A numeral has the same parts before any text that does not continue it. -/
theorem hasParts_local {text whole rest : Text} {fraction? : Option Text} {exponent? : Option Int}
    (h : HasParts text whole fraction? exponent? rest) :
    ∃ c used, c.isDigit = true ∧ text = c :: used ++ rest ∧
      ∀ rest', EndsNumeral rest' →
      HasParts (c :: used ++ rest') whole fraction? exponent? rest' := by
  obtain ⟨behind, behind', hwhole, hfraction, hexponent⟩ := h
  obtain ⟨c, digits, rfl, hc, rfl, hsameWhole⟩ := spanWhole?_local hwhole
  obtain ⟨f, rfl, hf, hsameFraction⟩ := fraction_local hfraction
  obtain ⟨e, rfl, he, hsameExponent⟩ := exponent_local hexponent
  refine ⟨c, digits ++ (f ++ e), hc, by simp, fun rest' hrest' => ?_⟩
  obtain ⟨hdigits, hpoint⟩ := ends_of_exponent he hrest'
  have hbehind : EndsDigits (f ++ (e ++ rest')) := by
    rcases hf with rfl | ⟨tail, rfl⟩
    · exact hdigits
    · exact endsDigits_cons (by decide) _
  have htext : c :: (digits ++ (f ++ e)) ++ rest' = c :: digits ++ (f ++ (e ++ rest')) := by simp
  rw [htext]
  exact ⟨_, _, hsameWhole _ hbehind, hsameFraction _ hdigits hpoint, hsameExponent _ hrest'⟩

/-- The number that the parts of a numeral make. -/
def numberOf (negative : Bool) (whole : Text) (fraction? : Option Text) (exponent? : Option Int) :
    Except Stop Json :=
  if fraction?.isNone && exponent?.isNone then
    if maxDigits < whole.length then .error (.tooManyDigits whole.length)
    else .ok (.int (if negative then -(decimalValue whole : Int) else decimalValue whole))
  else
    .ok (.float (.ofDecimal negative (decimalValue (whole ++ fraction?.getD []))
      (exponent?.getD 0 - (fraction?.getD []).length)))

theorem isNumeral_of_numberOf {negative : Bool} {whole : Text} {fraction? : Option Text}
    {exponent? : Option Int} {v : Json} (h : numberOf negative whole fraction? exponent? = .ok v) :
    isNumeral v = true := by
  unfold numberOf at h
  split at h
  · split at h
    · cases h
    · cases h
      rfl
  · cases h
    rfl

theorem readUnsigned_of_parts {text whole rest : Text} {fraction? : Option Text}
    {exponent? : Option Int} (h : HasParts text whole fraction? exponent? rest) (negative : Bool)
    (start : Text) :
    readUnsigned negative start text =
      (numberOf negative whole fraction? exponent?).map fun v => (v, rest) := by
  obtain ⟨behind, behind', hwhole, hfraction, hexponent⟩ := h
  rw [readUnsigned, hwhole]
  simp only [getD_eq_spanOptional, isNone_eq_spanOptional, hfraction, hexponent, numberOf]
  split
  · split <;> rfl
  · rfl

/-- A numeral behind its sign is read just if it has parts that make a number. -/
theorem readUnsigned_eq_ok_iff {negative : Bool} {start text rest : Text} {v : Json} :
    readUnsigned negative start text = .ok (v, rest) ↔
      ∃ whole fraction? exponent?, HasParts text whole fraction? exponent? rest ∧
        numberOf negative whole fraction? exponent? = .ok v := by
  constructor
  · intro h
    cases hwhole : spanWhole? text with
    | none => simp [readUnsigned, hwhole] at h
    | some found =>
      obtain ⟨whole, behind⟩ := found
      have hparts : HasParts text whole _ _ _ := ⟨behind, _, hwhole, rfl, rfl⟩
      rw [readUnsigned_of_parts hparts] at h
      obtain ⟨v', hv, hpair⟩ := map_eq_ok_iff.mp h
      cases hpair
      exact ⟨_, _, _, hparts, hv⟩
  · rintro ⟨whole, fraction?, exponent?, hparts, hv⟩
    rw [readUnsigned_of_parts hparts, hv]
    rfl

/-- A numeral behind its sign is read up to its last character, unless what follows continues it. -/
theorem readUnsigned_local {negative : Bool} {start text rest : Text} {v : Json}
    (h : readUnsigned negative start text = .ok (v, rest)) :
    isNumeral v = true ∧ ∃ c used, c.isDigit = true ∧ text = c :: used ++ rest ∧
      ∀ start' rest', EndsNumeral rest' →
        readUnsigned negative start' (c :: used ++ rest') = .ok (v, rest') := by
  obtain ⟨whole, fraction?, exponent?, hparts, hv⟩ := readUnsigned_eq_ok_iff.mp h
  obtain ⟨c, used, hc, htext, hlocal⟩ := hasParts_local hparts
  refine ⟨isNumeral_of_numberOf hv, c, used, hc, htext, fun start' rest' hrest' => ?_⟩
  exact readUnsigned_eq_ok_iff.mpr ⟨whole, fraction?, exponent?, hlocal rest' hrest', hv⟩

/-- A numeral is read up to its last character, unless what follows continues it. It begins with a
digit, or with a sign and a digit. -/
theorem readNumber_local {text rest : Text} {v : Json} (h : readNumber text = .ok (v, rest)) :
    isNumeral v = true ∧ ∃ sign c used, (sign = [] ∨ sign = ['-']) ∧ c.isDigit = true ∧
      text = sign ++ c :: used ++ rest ∧
      ∀ rest', EndsNumeral rest' → readNumber (sign ++ c :: used ++ rest') = .ok (v, rest') := by
  unfold readNumber at h
  split at h
  · obtain ⟨hv, c, used, hc, rfl, hlocal⟩ := readUnsigned_local h
    refine ⟨hv, ['-'], c, used, .inr rfl, hc, rfl, fun rest' hrest' => ?_⟩
    exact hlocal _ rest' hrest'
  · rename_i hsign
    obtain ⟨hv, c, used, hc, rfl, hlocal⟩ := readUnsigned_local h
    refine ⟨hv, [], c, used, .inl rfl, hc, rfl, fun rest' hrest' => ?_⟩
    unfold readNumber
    split
    · rename_i heq
      rw [(List.cons.inj heq).1] at hc
      exact absurd hc (by decide)
    · exact hlocal _ rest' hrest'

/-! ### Words and numerals -/

/-- A word with what follows it. -/
def readWord? (text : Text) : Option (Json × Text) :=
  words.findSome? fun (word, value) => (Text.dropLead? word text).map fun rest => (value, rest)

theorem readWord?_append {word : Text} {v : Json} (h : (word, v) ∈ words) (rest : Text) :
    readWord? (word ++ rest) = some (v, rest) := by
  simp only [words, List.mem_cons, Prod.mk.injEq, List.not_mem_nil, or_false] at h
  rcases h with ⟨rfl, rfl⟩ | ⟨rfl, rfl⟩ | ⟨rfl, rfl⟩ | ⟨rfl, rfl⟩ | ⟨rfl, rfl⟩ | ⟨rfl, rfl⟩ <;> rfl

theorem exists_word {text rest : Text} {v : Json} (h : readWord? text = some (v, rest)) :
    ∃ word, (word, v) ∈ words ∧ text = word ++ rest := by
  obtain ⟨⟨word, value⟩, hmem, hfound⟩ := List.exists_of_findSome?_eq_some h
  obtain ⟨rest, hlead, hpair⟩ := Option.map_eq_some_iff.mp hfound
  obtain ⟨rfl, rfl⟩ := Prod.mk.inj hpair
  exact ⟨word, hmem, Text.dropLead?_eq_some_iff.mp hlead⟩

/-- No word begins like a numeral. -/
theorem readWord?_numeral {sign text : Text} {c : Char} (hsign : sign = [] ∨ sign = ['-'])
    (hc : c.isDigit = true) : readWord? (sign ++ c :: text) = none := by
  have hne (x : Char) (hx : x.isDigit = false) : x ≠ c := fun heq => by
    rw [heq, hc] at hx
    exact absurd hx (by simp)
  rcases hsign with rfl | rfl
  · simp [readWord?, words, Text.dropLead?, hne 'n' (by decide), hne 't' (by decide),
      hne 'f' (by decide), hne 'N' (by decide), hne 'I' (by decide), hne '-' (by decide)]
  · simp [readWord?, words, Text.dropLead?, hne 'I' (by decide)]

theorem readAtom_eq (text : Text) :
    readAtom text = match readWord? text with
      | some found => .ok found
      | none => readNumber text := rfl

/-- Does a character begin a string, an array or an object, or end an array? -/
def isStructural (c : Char) : Bool := c = '"' || c = '[' || c = '{' || c = ']'

theorem word_head {word : Text} {v : Json} (h : (word, v) ∈ words) :
    (∀ fields, v ≠ .obj fields) ∧ ∃ c used, word = c :: used ∧ isStructural c = false := by
  simp only [words, List.mem_cons, Prod.mk.injEq, List.not_mem_nil, or_false] at h
  rcases h with ⟨rfl, rfl⟩ | ⟨rfl, rfl⟩ | ⟨rfl, rfl⟩ | ⟨rfl, rfl⟩ | ⟨rfl, rfl⟩ | ⟨rfl, rfl⟩ <;>
    exact ⟨fun _ => nofun, _, _, rfl, by decide⟩

theorem isStructural_of_isDigit {c : Char} (hc : c.isDigit = true) : isStructural c = false := by
  simp only [isStructural, Bool.or_eq_false_iff, decide_eq_false_iff_not]
  refine ⟨⟨⟨?_, ?_⟩, ?_⟩, ?_⟩ <;> (rintro rfl; exact absurd hc (by decide))

/-- A word or a numeral is read up to its last character, unless it is a numeral and what follows
continues it. -/
theorem readAtom_local {text rest : Text} {v : Json} (h : readAtom text = .ok (v, rest)) :
    (∀ fields, v ≠ .obj fields) ∧ ∃ c used, isStructural c = false ∧ text = c :: used ++ rest ∧
      ∀ rest', (isNumeral v = true → EndsNumeral rest') →
        readAtom (c :: used ++ rest') = .ok (v, rest') := by
  rw [readAtom_eq] at h
  split at h
  · rename_i found hword
    obtain rfl := Except.ok.inj h
    obtain ⟨word, hmem, rfl⟩ := exists_word hword
    obtain ⟨hobj, c, used, rfl, hc⟩ := word_head hmem
    refine ⟨hobj, c, used, hc, rfl, fun rest' _ => ?_⟩
    rw [readAtom_eq, readWord?_append hmem]
  · obtain ⟨hv, sign, c, used, hsign, hc, rfl, hlocal⟩ := readNumber_local h
    refine ⟨fun fields hobj => by rw [hobj] at hv; exact absurd hv (by simp [isNumeral]), ?_⟩
    have hread (rest' : Text) (hends : isNumeral v = true → EndsNumeral rest') :
        readAtom (sign ++ c :: used ++ rest') = .ok (v, rest') := by
      rw [readAtom_eq, List.append_assoc, List.cons_append, readWord?_numeral hsign hc,
        ← List.cons_append, ← List.append_assoc]
      exact hlocal rest' (hends hv)
    rcases hsign with rfl | rfl
    · exact ⟨c, used, isStructural_of_isDigit hc, rfl, hread⟩
    · exact ⟨'-', c :: used, by decide, rfl, hread⟩

end Splice.Json
