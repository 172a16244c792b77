import Splice.Bindings

/-!
# References in values

A value may refer to another variable as `${name}`. Only this braced form is a reference: `$name`,
`$$`, and references to unknown names stand for themselves.

* `Text.readReference?` — the reference at the beginning of a text; and
* `Text.expandReferences` — a text with its known references expanded, in one pass.
-/

namespace Splice.Text

/-- Does the character begin a name? Names are made of the underscore and the Latin letters, taken
without regard to case: so the dotted capital and the dotless small I, the long S and the Kelvin
sign count among them. -/
def isNameStart (c : Char) : Bool :=
  c = '_' || ('a' ≤ c && c ≤ 'z') || ('A' ≤ c && c ≤ 'Z')
    || c = '\u0130' || c = '\u0131' || c = '\u017f' || c = '\u212a'

/-- Does the character continue a name? -/
def isNameRest (c : Char) : Bool := isNameStart c || ('0' ≤ c && c ≤ '9')

/-- The name in a reference at the beginning of the text, and what follows the reference. -/
def readReference? : Text → Option (Text × Text)
  | '$' :: '{' :: c :: text =>
      if isNameStart c then
        match text.dropWhile isNameRest with
        | '}' :: rest => some (c :: text.takeWhile isNameRest, rest)
        | _ => none
      else none
  | _ => none

/-- The text with each reference to a name of `context` replaced by its value. While `skip` is
positive the characters belong to a reference that has been replaced. -/
def expandReferencesAux (context : Bindings Text) (skip : Nat) : Text → Text
  | [] => []
  | c :: text =>
      match skip with
      | skip + 1 => expandReferencesAux context skip text
      | 0 =>
          match (readReference? (c :: text)).bind fun (name, _) =>
              (Bindings.get? name context).map fun value => (name, value) with
          | some (name, value) =>
              -- The dollar sign is `c`; the braces and the name follow it.
              value ++ expandReferencesAux context (name.length + 2) text
          | none => c :: expandReferencesAux context 0 text

/-- The text with its references to names of `context` expanded (`expand_value`). Inserted text is
not expanded again. -/
def expandReferences (context : Bindings Text) (text : Text) : Text :=
  expandReferencesAux context 0 text

example :
    expandReferences [("a", "${a}")] "$a ${a} ${b} $${a}" = ("$a ${a} ${b} $${a}" : Text) := by
  decide

end Splice.Text
