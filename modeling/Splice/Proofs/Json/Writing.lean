import Splice.Json.Printer
import Splice.Proofs.Bindings
import Splice.Proofs.Json.Values
import Splice.Proofs.Text.Digits

/-!
# What is written is read

A value that is written is read again from every text that begins with it, if none of its numbers is
a floating-point number or has too many digits, and if the fields of each object have different
names.

* `Json.all` — a property of a value and of all values in it;
* `Json.readsString_write`, `Json.readAtom_ofInt` — strings and integers;
* `Json.readsValue_write` — whole values; and
* `Json.parse_write` — a text that is nothing but a written value.
-/

namespace Splice

namespace Json

/-! ### Properties of all parts -/

mutual

/-- Does a value have a property, and every value in it? -/
def all (p : Json → Bool) : Json → Bool
  | .null => p .null
  | .bool b => p (.bool b)
  | .int n => p (.int n)
  | .float x => p (.float x)
  | .str text => p (.str text)
  | .arr items => p (.arr items) && allItems p items
  | .obj fields => p (.obj fields) && allFields p fields

/-- Do all items have the property? -/
def allItems (p : Json → Bool) : List Json → Bool
  | [] => true
  | item :: items => all p item && allItems p items

/-- Do the values of all fields have the property? -/
def allFields (p : Json → Bool) : List (Text × Json) → Bool
  | [] => true
  | (_, value) :: fields => all p value && allFields p fields

end

/-- The value is no floating-point number. -/
def isExact : Json → Bool
  | .float _ => false
  | _ => true

/-- The value is no integer with more digits than may be read or written. -/
def isShort : Json → Bool
  | .int n => decide ((Text.ofNat n.natAbs).length ≤ maxDigits)
  | _ => true

/-- The fields, if the value is an object, have different names. -/
def isDistinct : Json → Bool
  | .obj fields => decide (Bindings.names fields).Nodup
  | _ => true

/-- All of these. -/
def isPlain (v : Json) : Bool := isExact v && (isShort v && isDistinct v)

/-! ### Strings -/

/-- The numeric escape of a control character has four digits, which spell its number. -/
theorem exists_ofHex_eq {n : Nat} (hn : n < 0x20) :
    ∃ a b c d, Text.ofHex 4 n = [a, b, c, d] ∧ hex4? a b c d = some n := by
  have hall : ∀ n < 0x20,
      Text.ofHex 4 n = (List.range 4).map (fun i => (Text.ofHex 4 n).getD i '0') ∧
        hex4? ((Text.ofHex 4 n).getD 0 '0') ((Text.ofHex 4 n).getD 1 '0')
          ((Text.ofHex 4 n).getD 2 '0') ((Text.ofHex 4 n).getD 3 '0') = some n := by decide
  exact ⟨_, _, _, _, hall n hn⟩

/-- A control character is no surrogate, so its numeric escape is read as this character alone. -/
theorem readNumericEscape_ofHex {c : Char} (hc : c.toNat < 0x20) {behind : Text}
    (hbehind : behind ≠ []) :
    readNumericEscape ('u' :: (Text.ofHex 4 c.toNat ++ behind)) = .ok (c, behind) := by
  obtain ⟨d₁, d₂, d₃, d₄, hdigits, hnumber⟩ := exists_ofHex_eq hc
  have hlow : isHighSurrogate c.toNat = false := by
    simp only [isHighSurrogate, Bool.and_eq_false_imp, decide_eq_true_eq]
    omega
  have halone : StaysAlone c.toNat behind := fun hhigh => absurd hhigh (by simp [hlow])
  have hread := readNumericEscape_alone (u := 'u') hnumber hbehind halone
  rw [Char.ofNat_toNat] at hread
  rw [hdigits]
  exact hread

/-- Each character is taken in its written form. -/
theorem takesChar_escape (c : Char) {behind : Text} (hbehind : behind ≠ []) :
    TakesChar (escape c ++ behind) c behind := by
  unfold escape
  split
  all_goals try exact .letter (by decide) rfl
  rename_i hquote hslash _ _ _ _ _
  split
  · rename_i hcontrol
    have htext : ("\\u" : Text) ++ Text.ofHex 4 c.toNat ++ behind =
        '\\' :: 'u' :: (Text.ofHex 4 c.toNat ++ behind) := by
      rw [List.append_assoc]
      rfl
    rw [htext]
    exact .numeric (readNumericEscape_ofHex hcontrol hbehind)
  · rename_i hcontrol
    exact .itself hquote hslash hcontrol

theorem escape_ne_nil (c : Char) : escape c ≠ [] := by
  unfold escape
  split
  all_goals try exact List.cons_ne_nil _ _
  split <;> simp

/-- A written string is read up to its closing quote. -/
theorem readsString_write (text : Text) : ReadsString (text.flatMap escape) text := by
  induction text with
  | nil => exact readsString_nil
  | cons c text ih =>
    rw [List.flatMap_cons]
    exact ih.cons (escape_ne_nil c) fun rest => takesChar_escape c (by simp)

/-! ### Integers -/

theorem spanFraction?_ends {text : Text} (h : EndsNumeral text) : spanFraction? text = none := by
  cases text with
  | nil => rfl
  | cons c text =>
    refine spanFraction?_eq_none (fun hc => ?_) text
    have hpoint := h c rfl
    rw [hc] at hpoint
    exact absurd hpoint (by decide)

/-- The decimal digits of a number are all taken, since only zero begins with a zero. -/
theorem spanWhole?_ofNat (n : Nat) {rest : Text} (h : EndsDigits rest) :
    spanWhole? (Text.ofNat n ++ rest) = some (Text.ofNat n, rest) := by
  have hdigits : ∀ c ∈ Text.ofNat n, c.isDigit = true := fun c hc => Text.isDigit_of_mem_ofNat hc
  have hspan := spanDigits_append hdigits h
  obtain ⟨c, digits, heq, hzero⟩ := Text.exists_ofNat_eq_cons n
  have hc : c.isDigit = true := hdigits c (by rw [heq]; exact List.mem_cons_self)
  rw [heq] at hspan ⊢
  by_cases hfirst : c = '0'
  · obtain ⟨-, rfl⟩ := hzero hfirst
    subst hfirst
    rfl
  · rw [List.cons_append] at hspan ⊢
    rw [spanWhole?]
    · rw [if_pos hc, hspan]
    · exact fun h => hfirst h

theorem readUnsigned_ofNat (negative : Bool) (start : Text) {n : Nat}
    (hshort : (Text.ofNat n).length ≤ maxDigits) {rest : Text} (h : EndsNumeral rest) :
    readUnsigned negative start (Text.ofNat n ++ rest) =
      .ok (.int (if negative then -(n : Int) else n), rest) := by
  have hvalue : decimalValue (Text.ofNat n) = n := Text.digitsValue_ofNat n
  simp only [readUnsigned, spanWhole?_ofNat n h.endsDigits, spanFraction?_ends h,
    spanExponent?_eq_none h, Option.getD_none, Option.isNone_none, Bool.and_self, if_true,
    if_neg (Nat.not_lt.mpr hshort), hvalue]

/-- An integer is written as a digit with others behind it, or as a minus sign and such digits. -/
theorem readAtom_ofInt {n : Int} (hshort : isShort (.int n) = true) :
    ∃ sign c digits, (sign = [] ∨ sign = ['-']) ∧ c.isDigit = true ∧
      Text.ofInt n = sign ++ c :: digits ∧
      ∀ rest, EndsNumeral rest → readAtom (sign ++ c :: digits ++ rest) = .ok (.int n, rest) := by
  have hdigit {m : Nat} {c : Char} {digits : Text} (heq : Text.ofNat m = c :: digits) :
      c.isDigit = true := Text.isDigit_of_mem_ofNat (by rw [heq]; exact List.mem_cons_self)
  have hatom {sign digits : Text} {c : Char} (hsign : sign = [] ∨ sign = ['-'])
      (hc : c.isDigit = true) (rest : Text) :
      readAtom (sign ++ c :: digits ++ rest) = readNumber (sign ++ c :: digits ++ rest) := by
    rw [readAtom_eq, List.append_assoc, List.cons_append, readWord?_numeral hsign hc]
  rw [isShort, decide_eq_true_eq] at hshort
  cases n with
  | ofNat m =>
    obtain ⟨c, digits, heq, -⟩ := Text.exists_ofNat_eq_cons m
    have hc := hdigit heq
    have hnat : (Int.ofNat m).natAbs = m := rfl
    rw [hnat] at hshort
    refine ⟨[], c, digits, .inl rfl, hc, heq, fun rest hends => ?_⟩
    -- No sign: the numeral begins with its first digit.
    have hread := readUnsigned_ofNat false (c :: digits ++ rest) hshort hends
    rw [hatom (.inl rfl) hc, List.nil_append, readNumber]
    · rw [← heq]
      rw [heq] at hread ⊢
      exact hread
    · rintro behind hminus
      rw [(List.cons.inj hminus).1] at hc
      exact absurd hc (by decide)
  | negSucc m =>
    obtain ⟨c, digits, heq, -⟩ := Text.exists_ofNat_eq_cons (m + 1)
    have hc := hdigit heq
    refine ⟨['-'], c, digits, .inr rfl, hc, by rw [Text.ofInt, heq]; rfl, fun rest hends => ?_⟩
    have hread := readUnsigned_ofNat true ('-' :: (c :: digits ++ rest)) hshort hends
    rw [Int.natAbs_negSucc, Nat.succ_eq_add_one, heq] at hread
    rw [hatom (.inr rfl) hc]
    exact hread

/-! ### Values -/

/-- Neither white space nor a byte order mark. -/
def beginsToken (c : Char) : Bool := !isSpace c && decide (c ≠ '\uFEFF')

theorem beginsToken_of_isDigit {c : Char} (h : c.isDigit = true) : beginsToken c = true := by
  simp only [beginsToken, isSpace, Bool.and_eq_true, Bool.not_eq_eq_eq_not, Bool.not_true,
    Bool.or_eq_false_iff, decide_eq_false_iff_not, decide_eq_true_eq]
  refine ⟨⟨⟨⟨?_, ?_⟩, ?_⟩, ?_⟩, ?_⟩ <;> (rintro rfl; exact absurd h (by decide))

theorem exists_write_eq_cons {v : Json} (h : isExact v = true) :
    ∃ c tail, v.write = c :: tail ∧ beginsToken c = true := by
  cases v with
  | null => exact ⟨_, _, rfl, by decide⟩
  | bool b => cases b <;> exact ⟨_, _, rfl, by decide⟩
  | int n =>
    cases n with
    | ofNat m =>
      obtain ⟨c, digits, heq, -⟩ := Text.exists_ofNat_eq_cons m
      have hc : c ∈ Text.ofNat m := by rw [heq]; exact List.mem_cons_self
      exact ⟨c, digits, heq, beginsToken_of_isDigit (Text.isDigit_of_mem_ofNat hc)⟩
    | negSucc m => exact ⟨_, _, rfl, by decide⟩
  | float x => exact absurd h (by simp [isExact])
  | str text => exact ⟨_, _, rfl, by decide⟩
  | arr items => exact ⟨_, _, rfl, by decide⟩
  | obj fields => exact ⟨_, _, rfl, by decide⟩

theorem allSpace_nil : AllSpace [] := List.forall_mem_nil _

/-- Nothing is skipped in front of a token. -/
theorem skipped_nil {c : Char} (hc : beginsToken c = true) (tail : Text) :
    Skipped [] (c :: tail) := by
  intro rest
  simp only [beginsToken, Bool.and_eq_true, Bool.not_eq_eq_eq_not, Bool.not_true] at hc
  exact skipSpace_append allSpace_nil hc.1 _

theorem skipped_write {v : Json} (h : isExact v = true) (behind : Text) :
    Skipped [] (v.write ++ behind) := by
  obtain ⟨c, tail, heq, hc⟩ := exists_write_eq_cons h
  rw [heq]
  exact skipped_nil hc _

theorem readsValue_word {word : Text} {v : Json} (h : (word, v) ∈ words) : ReadsValue word v := by
  obtain ⟨hobj, c, tail, rfl, hc⟩ := word_head h
  refine readsValue_atom hobj hc fun rest _ => ?_
  rw [readAtom_eq, readWord?_append h]

theorem readsValue_ofInt {n : Int} (hshort : isShort (.int n) = true) :
    ReadsValue (Text.ofInt n) (.int n) := by
  obtain ⟨sign, c, digits, hsign, hc, heq, hread⟩ := readAtom_ofInt hshort
  rw [heq]
  rcases hsign with rfl | rfl
  · exact readsValue_atom nofun (isStructural_of_isDigit hc) fun rest hends =>
      hread rest (hends rfl)
  · exact readsValue_atom nofun (by decide) fun rest hends => hread rest (hends rfl)

theorem isExact_of_all {v : Json} (h : v.all isPlain = true) : isExact v = true := by
  cases v with
  | float x => exact absurd h (by simp [all, isPlain, isExact])
  | _ => rfl

theorem skipped_writeItems {item : Json} (h : isExact item = true) (items : List Json)
    (behind : Text) : Skipped [] (writeItems (item :: items) ++ behind) := by
  cases items with
  | nil => exact skipped_write h behind
  | cons next items =>
    rw [writeItems, List.append_assoc]
    exact skipped_write h _

/-- A written field is a field with no white space in it. -/
theorem readsField_write {v : Json} (h : v.all isPlain = true) (hreads : ReadsValue v.write v)
    (name : Text) : ReadsField (writeString name ++ ':' :: v.write) name v := by
  have hskipped := skipped_write (isExact_of_all h) []
  rw [List.append_nil] at hskipped
  have hfield := readsField (readsString_write name) allSpace_nil hskipped hreads
  have htext : writeString name ++ ':' :: v.write =
      '"' :: (name.flatMap escape ++ '"' :: ([] ++ ':' :: ([] ++ v.write))) := by
    simp [writeString]
  rwa [htext]

mutual

/-- A written value is read from every text that begins with it. -/
theorem readsValue_write : (v : Json) → v.all isPlain = true → ReadsValue v.write v
  | .null, _ => readsValue_word (.head _)
  | .bool true, _ => readsValue_word (.tail _ (.head _))
  | .bool false, _ => readsValue_word (.tail _ (.tail _ (.head _)))
  | .int n, h => readsValue_ofInt (by simpa [all, isPlain, isExact, isDistinct] using h)
  | .float _, h => absurd h (by simp [all, isPlain, isExact])
  | .str text, _ => readsValue_str (readsString_write text)
  | .arr [], _ => readsValue_arr_nil allSpace_nil
  | .arr (item :: items), h => by
    rw [all, Bool.and_eq_true, allItems, Bool.and_eq_true] at h
    have hitems := readsItems_write (item :: items) (List.cons_ne_nil _ _)
      (by rw [allItems, h.2.1, h.2.2]; rfl)
    exact hitems.readsValue (skipped_writeItems (isExact_of_all h.2.1) items [']'])
  | .obj [], _ => readsValue_obj_nil allSpace_nil
  | .obj (field :: fields), h => by
    rw [all, Bool.and_eq_true] at h
    have hfields := readsFields_write (field :: fields) (List.cons_ne_nil _ _) h.2
    have hdistinct : (Bindings.names (field :: fields)).Nodup := by
      simpa [isPlain, isExact, isShort, isDistinct] using h.1
    obtain ⟨tail, htail⟩ := hfields.head
    have hskipped : Skipped [] (writeFields (field :: fields) ++ ['}']) := by
      rw [htail]
      exact skipped_nil (by decide) tail
    have hreads := hfields.readsValue hskipped
    rwa [Bindings.ofList_eq_self hdistinct] at hreads

/-- Written items with the closing bracket are read from every text that begins with them. -/
theorem readsItems_write : (items : List Json) → items ≠ [] → allItems isPlain items = true →
    ReadsItems (writeItems items ++ [']']) items
  | [], hne, _ => absurd rfl hne
  | [item], _, h => by
    rw [allItems, Bool.and_eq_true] at h
    exact .last (readsValue_write item h.1) allSpace_nil
  | item :: next :: items, _, h => by
    rw [allItems, Bool.and_eq_true, allItems, Bool.and_eq_true] at h
    have hmore := readsItems_write (next :: items) (List.cons_ne_nil _ _)
      (by rw [allItems, h.2.1, h.2.2]; rfl)
    have hskipped := skipped_writeItems (isExact_of_all h.2.1) items [']']
    have hitems := ReadsItems.cons (readsValue_write item h.1) allSpace_nil hskipped hmore
    simpa [writeItems] using hitems

/-- Written fields with the closing brace are read from every text that begins with them. -/
theorem readsFields_write : (fields : List (Text × Json)) → fields ≠ [] →
    allFields isPlain fields = true → ReadsFields (writeFields fields ++ ['}']) fields
  | [], hne, _ => absurd rfl hne
  | [(name, value)], _, h => by
    rw [allFields, Bool.and_eq_true] at h
    have hfield := readsField_write h.1 (readsValue_write value h.1) name
    exact .last hfield allSpace_nil
  | (name, value) :: next :: fields, _, h => by
    rw [allFields, Bool.and_eq_true] at h
    have hfield := readsField_write h.1 (readsValue_write value h.1) name
    have hmore := readsFields_write (next :: fields) (List.cons_ne_nil _ _) h.2
    obtain ⟨tail, htail⟩ := hmore.head
    have hskipped : Skipped [] (writeFields (next :: fields) ++ ['}']) := by
      rw [htail]
      exact skipped_nil (by decide) tail
    have hfields := ReadsFields.cons hfield allSpace_nil hskipped hmore
    simpa [writeFields] using hfields

end

/-- A written value is read from a text that is nothing else. -/
theorem parse_write {v : Json} (h : v.all isPlain = true) : parse v.write = .ok v := by
  obtain ⟨c, tail, heq, hc⟩ := exists_write_eq_cons (isExact_of_all h)
  have hread := (readsValue_write v h).read (2 * v.write.length + 2) [] (Nat.le_add_right _ _)
    fun _ => nofun
  have hskip := skipped_nil hc tail []
  rw [List.append_nil, List.nil_append] at hskip
  simp only [beginsToken, Bool.and_eq_true, decide_eq_true_eq] at hc
  have hmark : Text.hasLead ['\uFEFF'] v.write = false := by
    rw [heq]
    simp [Text.hasLead, Text.dropLead?, Ne.symm hc.2]
  rw [List.append_nil] at hread
  rw [parse, hmark, heq, hskip, ← heq, hread]
  rfl

end Json

end Splice
