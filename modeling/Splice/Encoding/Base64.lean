import Splice.Encoding.Basic

/-!
# Base 64

Each character of the alphabet stands for six bits. Characters outside the alphabet are skipped, and
padding ends the data once the last group of four is complete.

* `Encoding.sextet?` — the bits that a character stands for; and
* `Encoding.decodeBase64?` — the bytes of a text.
-/

namespace Splice.Encoding

/-- The six bits that a character stands for. -/
def sextet? (c : Char) : Option Nat :=
  if 'A' ≤ c ∧ c ≤ 'Z' then some (c.toNat - 'A'.toNat)
  else if 'a' ≤ c ∧ c ≤ 'z' then some (c.toNat - 'a'.toNat + 26)
  else if '0' ≤ c ∧ c ≤ '9' then some (c.toNat - '0'.toNat + 52)
  else if c = '+' then some 62
  else if c = '/' then some 63
  else none

/-- The bytes from a place on. `count` characters of a group of four have been read before, of which
`left` holds the bits that are not yet part of a byte, and `pads` padding characters since. -/
def decodeBase64From? (count left pads : Nat) : Text → Option Bytes
  | [] => if count = 0 then some [] else none
  | c :: text =>
      if c = '=' then
        -- Padding that comes too early is passed over; padding that fills the group ends the bytes.
        if count < 2 then decodeBase64From? count left pads text
        else if 4 ≤ count + pads + 1 then some []
        else decodeBase64From? count left (pads + 1) text
      else
        match sextet? c with
        | none => decodeBase64From? count left pads text
        | some bits =>
            match count with
            | 0 => decodeBase64From? 1 bits 0 text
            | 1 =>
                (decodeBase64From? 2 (bits % 16) 0 text).map
                  (UInt8.ofNat (left * 4 + bits / 16) :: ·)
            | 2 =>
                (decodeBase64From? 3 (bits % 4) 0 text).map
                  (UInt8.ofNat (left * 16 + bits / 4) :: ·)
            | _ => (decodeBase64From? 0 0 0 text).map (UInt8.ofNat (left * 64 + bits) :: ·)

/-- The bytes that a text stands for, unless its last group is incomplete. -/
def decodeBase64? (text : Text) : Option Bytes := decodeBase64From? 0 0 0 text

example : decodeBase64? ("aGk=" : Text) = some [104, 105] := by decide

end Splice.Encoding
