/-!
# Text

Documents, paths and values are lists of code points, so that every scan is a recursion on the
data and an offset is a number of characters. This module provides:

* `Text`, with a coercion from string literals;
* `Text.dropLead?` — what follows a literal lead;
* `Text.cut?` — the two sides of the first occurrence of a character; and
* `Text.isBefore` and `Text.sort` — the order of texts by code point.
-/

namespace Splice

/-- A text is a list of code points. -/
abbrev Text := List Char

instance : Coe String Text := ⟨String.toList⟩

namespace Text

/-- What follows `lead` in a text that begins with it. -/
def dropLead? : Text → Text → Option Text
  | [], text => some text
  | _ :: _, [] => none
  | c :: lead, d :: text => if c = d then dropLead? lead text else none

/-- A lead and what follows it make up the text. -/
theorem dropLead?_eq_some_iff {lead text rest : Text} :
    dropLead? lead text = some rest ↔ text = lead ++ rest := by
  induction lead generalizing text with
  | nil => simp [dropLead?]
  | cons c lead ih =>
    cases text with
    | nil => simp [dropLead?]
    | cons d text =>
      by_cases h : c = d
      · simp [dropLead?, h, ih]
      · simp [dropLead?, h, Ne.symm h]

/-- Does the text begin with `lead`? -/
def hasLead (lead text : Text) : Bool := (dropLead? lead text).isSome

/-- Does the text end with `tail`? -/
def hasTail (tail text : Text) : Bool := hasLead tail.reverse text.reverse

/-- The parts of a text before and after the first occurrence of a character. -/
def cut? (sep : Char) : Text → Option (Text × Text)
  | [] => none
  | c :: text =>
      if c = sep then some ([], text)
      else (cut? sep text).map fun (before, after) => (c :: before, after)

/-- The pieces of a text between the occurrences of a character. There is always at least one. -/
def pieces (sep : Char) : Text → List Text
  | [] => [[]]
  | c :: text =>
      if c = sep then [] :: pieces sep text
      else
        match pieces sep text with
        | [] => [[c]]
        | piece :: rest => (c :: piece) :: rest

/-- The text without one line feed at its end. -/
def dropFinalBreak (text : Text) : Text :=
  if text.getLast? = some '\n' then text.dropLast else text

/-- Does the first text come before the second, comparing code points from the left? -/
def isBefore : Text → Text → Bool
  | [], [] => false
  | [], _ :: _ => true
  | _ :: _, [] => false
  | c :: s, d :: t => if c = d then isBefore s t else decide (c.val < d.val)

/-- The texts in code point order, with equal ones kept. -/
def sort (texts : List Text) : List Text := texts.mergeSort fun s t => !isBefore t s

/-- A natural number in decimal digits. -/
def ofNat (n : Nat) : Text := Nat.toDigits 10 n

/-- An integer in decimal digits, with a minus sign if it is negative. -/
def ofInt : Int → Text
  | .ofNat n => ofNat n
  | .negSucc n => '-' :: ofNat (n + 1)

/-- A number in lower-case hexadecimal, filled up with zeros to `width` digits. -/
def ofHex (width n : Nat) : Text :=
  let digits := Nat.toDigits 16 n
  List.replicate (width - digits.length) '0' ++ digits

/-- The value of a hexadecimal digit of either case. -/
def hexDigit? (c : Char) : Option Nat :=
  if '0' ≤ c ∧ c ≤ '9' then some (c.toNat - '0'.toNat)
  else if 'a' ≤ c ∧ c ≤ 'f' then some (c.toNat - 'a'.toNat + 10)
  else if 'A' ≤ c ∧ c ≤ 'F' then some (c.toNat - 'A'.toNat + 10)
  else none

/-- The number that a run of digits spells in the given base. -/
def digitsValue (base : Nat) (digits : List Nat) : Nat :=
  digits.foldl (fun n d => base * n + d) 0

/-- The character with its ASCII capital replaced by the small letter. -/
def lower (text : Text) : Text := text.map Char.toLower

end Text

end Splice
