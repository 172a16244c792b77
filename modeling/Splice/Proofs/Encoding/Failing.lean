import Splice.Encoding.Codec
import Splice.Proofs.Outcomes

/-!
# How decoding and encoding fail

Decoding fails because of bytes that are no text, and encoding because of characters that have no
bytes. The two are never taken for each other.

* `Encoding.Error.isUnencodable` — is the error about characters?
* `Encoding.decode_error` — the errors of decoding are not;
* `Encoding.encode_error` — those of encoding are; and
* `Encoding.Codec.decode_error`, `Encoding.Codec.encode_error` — the same of all codecs of a
  machine.
-/

namespace Splice.Encoding

/-- Are there characters that have no bytes? -/
def Error.isUnencodable : Error → Bool
  | .unencodable .. | .refusedText _ => true
  | _ => false

variable {bytes : Bytes} {e : Error}

theorem error_of_map {α β : Type} {x : Except Error α} {f : α → β} (h : x.map f = .error e) :
    x = .error e := by
  cases x with
  | error e' =>
    cases h
    rfl
  | ok a => cases h

theorem decodeSingle_error {encoding : Encoding} {offset : Nat}
    (h : decodeSingle encoding offset bytes = .error e) : e.isUnencodable = false := by
  induction bytes generalizing offset with
  | nil => cases h
  | cons b rest ih =>
    rw [decodeSingle] at h
    split at h
    · exact ih (error_of_map h)
    · cases h
      rfl

theorem decodeUtf8From_error {offset pending low high value start : Nat} {first : UInt8}
    (h : decodeUtf8From offset pending low high value first start bytes = .error e) :
    e.isUnencodable = false := by
  induction bytes generalizing offset pending low high value first start with
  | nil =>
    rw [decodeUtf8From] at h
    split at h
    · cases h
    · cases h
      rfl
  | cons b rest ih =>
    cases pending with
    | zero =>
      rw [decodeUtf8From] at h
      split at h
      · cases h
        rfl
      · exact ih (error_of_map h)
      · exact ih h
    | succ pending =>
      simp only [decodeUtf8From] at h
      split at h
      · split at h
        · exact ih (error_of_map h)
        · exact ih h
      · cases h
        rfl

theorem decodeUtf16_error {big : Bool} {offset : Nat}
    (h : decodeUtf16 big offset bytes = .error e) : e.isUnencodable = false := by
  fun_induction decodeUtf16 big offset bytes with
  | case1 => cases h
  | case2 =>
    cases h
    rfl
  | case3 _ _ _ _ _ _ ih => exact ih (error_of_map h)
  | case4 =>
    cases h
    rfl
  | case5 _ _ _ _ _ _ _ _ _ _ _ _ ih => exact ih (error_of_map h)
  | case6 =>
    cases h
    rfl
  | case7 =>
    cases h
    rfl

theorem decodeUtf16Marked_error (h : decodeUtf16Marked bytes = .error e) :
    e.isUnencodable = false := by
  unfold decodeUtf16Marked at h
  split at h
  · exact decodeUtf16_error h
  · exact decodeUtf16_error h
  · split at h
    · rename_i herror
      cases h
      exact decodeUtf16_error herror
    · split at h
      · cases h
      · cases h
        rfl

theorem decodeUtf8Marked_error (h : decodeUtf8Marked bytes = .error e) :
    e.isUnencodable = false := by
  unfold decodeUtf8Marked at h
  split at h
  · exact decodeUtf8From_error h
  · cases h
  · cases h
  · exact decodeUtf8From_error h

/-- Decoding does not fail because of characters. -/
theorem decode_error {encoding : Encoding} (h : encoding.decode bytes = .error e) :
    e.isUnencodable = false := by
  cases encoding with
  | utf8 => exact decodeUtf8From_error h
  | utf8Marked => exact decodeUtf8Marked_error h
  | latin1 => exact decodeSingle_error h
  | ascii => exact decodeSingle_error h
  | utf16Marked => exact decodeUtf16Marked_error h
  | utf16Little => exact decodeUtf16_error h
  | utf16Big => exact decodeUtf16_error h

theorem encodeSingle_error {encoding : Encoding} {offset : Nat} {text : Text}
    (h : encodeSingle encoding offset text = .error e) : e.isUnencodable = true := by
  induction text generalizing offset with
  | nil => cases h
  | cons c rest ih =>
    rw [encodeSingle] at h
    split at h
    · exact ih (error_of_map h)
    · cases h
      rfl

/-- Encoding fails because of characters only. -/
theorem encode_error {encoding : Encoding} {text : Text} (h : encoding.encode text = .error e) :
    e.isUnencodable = true := by
  cases encoding with
  | latin1 => exact encodeSingle_error h
  | ascii => exact encodeSingle_error h
  | utf8 | utf8Marked | utf16Marked | utf16Little | utf16Big => cases h

/-! ### Codecs -/

theorem codecOf_error [Codecs] {name : Text} (h : codecOf name = .error e) :
    e.isUnencodable = false := by
  unfold codecOf at h
  split at h
  · cases h
  · split at h
    · cases h
      rfl
    · cases h
      rfl
    · cases h

theorem Codec.decode_error {codec : Codec} (h : codec.decode bytes = .error e) :
    e.isUnencodable = false := by
  cases codec with
  | known encoding => exact Encoding.decode_error h
  | further decode encode =>
    obtain ⟨message, -, rfl⟩ := mapError_eq_error_iff.mp h
    rfl

theorem Codec.encode_error {codec : Codec} {text : Text} (h : codec.encode text = .error e) :
    e.isUnencodable = true := by
  cases codec with
  | known encoding => exact Encoding.encode_error h
  | further decode encode =>
    obtain ⟨message, -, rfl⟩ := mapError_eq_error_iff.mp h
    rfl

end Splice.Encoding
