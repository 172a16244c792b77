import Splice.Text.Basic

/-!
# Escaping for markup

Eight characters have an entity each, so that text can stand in markup or in an attribute value.
-/

namespace Splice.Mustache

/-- The entity of a character, if it has one. -/
def entity? : Char → Option Text
  | '&' => some "&amp;"
  | '<' => some "&lt;"
  | '>' => some "&gt;"
  | '"' => some "&quot;"
  | '\'' => some "&#39;"
  | '/' => some "&#x2F;"
  | '\x60' => some "&#x60;"
  | '=' => some "&#x3D;"
  | _ => none

/-- The text with its special characters replaced by their entities (`escape_html`). -/
def escape (text : Text) : Text := text.flatMap fun c => (entity? c).getD [c]

end Splice.Mustache
