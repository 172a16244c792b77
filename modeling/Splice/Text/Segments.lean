import Splice.Text.Basic

/-!
# Replacing a token in a text

A token is a literal text. Its occurrences are taken from the left and do not overlap, and they cut
the text into segments. The empty token occurs before, between and after all characters.

* `Text.segments` — the text between the occurrences of a token;
* `Text.replace` — the segments joined by another text; and
* `Text.occurrences` — the places of the token, as half-open ranges.
-/

namespace Splice.Text

/-- The segments between the occurrences of a token that is not empty. While `skip` is positive the
characters belong to the occurrence found last. -/
def segmentsAux (token : Text) (skip : Nat) : Text → List Text
  | [] => [[]]
  | c :: text =>
      match skip with
      | skip + 1 => segmentsAux token skip text
      | 0 =>
          if hasLead token (c :: text) then [] :: segmentsAux token (token.length - 1) text
          else
            match segmentsAux token 0 text with
            | [] => [[c]]
            | segment :: rest => (c :: segment) :: rest

/-- The segments of a text between the occurrences of a token. -/
def segments (token text : Text) : List Text :=
  if token.isEmpty then [] :: text.map (fun c => [c]) ++ [[]] else segmentsAux token 0 text

/-- The text with each occurrence of the token replaced by `value`. What is inserted is not searched
again. -/
def replace (token value text : Text) : Text := List.intercalate value (segments token text)

/-- The occurrences of the token, each with its offset and the offset behind it. -/
def occurrences (token text : Text) : List (Nat × Nat) :=
  go 0 (segments token text)
where
  /-- The occurrences that follow each segment but the last, when the first one begins at
  `start`. -/
  go (start : Nat) : List Text → List (Nat × Nat)
    | [] => []
    | [_] => []
    | segment :: next :: rest =>
        let place := start + segment.length
        (place, place + token.length) :: go (place + token.length) (next :: rest)

example : replace "aa" "-" "aaaaa" = ("--a" : Text) := by decide

example : replace "" "-" "ab" = ("-a-b-" : Text) := by decide

end Splice.Text
