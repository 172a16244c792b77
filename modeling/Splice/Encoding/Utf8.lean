import Splice.Encoding.Basic

/-!
# UTF-8

Every code point has one form of one to four bytes. Longer forms than needed, surrogates and numbers
beyond the last code point are refused, at the first byte that shows it.

* `Encoding.utf8Bytes` — the bytes of a character; and
* `Encoding.decodeUtf8` — the text of bytes.
-/

namespace Splice.Encoding

/-- The byte with this value. -/
def byte (n : Nat) : UInt8 := UInt8.ofNat n

/-- The bytes of a character. -/
def utf8Bytes (c : Char) : Bytes :=
  let n := c.toNat
  if n < 0x80 then [byte n]
  else if n < 0x800 then [byte (0xc0 + n / 0x40), byte (0x80 + n % 0x40)]
  else if n < 0x10000 then
    [byte (0xe0 + n / 0x1000), byte (0x80 + n / 0x40 % 0x40), byte (0x80 + n % 0x40)]
  else
    [byte (0xf0 + n / 0x40000), byte (0x80 + n / 0x1000 % 0x40), byte (0x80 + n / 0x40 % 0x40),
      byte (0x80 + n % 0x40)]

/-- The bytes of a text. -/
def encodeUtf8 (text : Text) : Bytes := text.flatMap utf8Bytes

/-- How many bytes follow a first byte, and the range of the first of them; none if no character
begins with the byte. -/
def utf8Lead? (n : Nat) : Option (Nat × Nat × Nat) :=
  if n < 0x80 then some (0, 0, 0)
  else if n < 0xc2 then none
  else if n < 0xe0 then some (1, 0x80, 0xbf)
  else if n < 0xf0 then
    some (2, if n = 0xe0 then 0xa0 else 0x80, if n = 0xed then 0x9f else 0xbf)
  else if n < 0xf5 then
    some (3, if n = 0xf0 then 0x90 else 0x80, if n = 0xf4 then 0x8f else 0xbf)
  else none

/-- The part of the code point that a first byte holds, when `count` bytes follow it. -/
def leadBits (count n : Nat) : Nat :=
  match count with
  | 0 => n
  | 1 => n - 0xc0
  | 2 => n - 0xe0
  | _ => n - 0xf0

/-- Decodes bytes. `offset` counts the bytes before them. Within a character, `pending` is the
number of bytes that are to follow, `low` and `high` bound the next one, `value` is what has been
read, and `first` is the byte it began with, at `start`. -/
def decodeUtf8From (offset pending low high value : Nat) (first : UInt8) (start : Nat) :
    Bytes → Except Error Text
  | [] =>
      if pending = 0 then .ok []
      else .error (.undecodable .utf8 .ending first start offset)
  | b :: rest =>
      let n := b.toNat
      match pending with
      | 0 =>
          match utf8Lead? n with
          | none => .error (.undecodable .utf8 .start b offset (offset + 1))
          | some (0, _, _) =>
              (decodeUtf8From (offset + 1) 0 0 0 0 b offset rest).map (Char.ofNat n :: ·)
          | some (count, low, high) =>
              decodeUtf8From (offset + 1) count low high (leadBits count n) b offset rest
      | pending + 1 =>
          if low ≤ n ∧ n ≤ high then
            let value := value * 0x40 + (n - 0x80)
            if pending = 0 then
              (decodeUtf8From (offset + 1) 0 0 0 0 b offset rest).map (Char.ofNat value :: ·)
            else decodeUtf8From (offset + 1) pending 0x80 0xbf value first start rest
          else .error (.undecodable .utf8 .continuation first start offset)

/-- The text of bytes. -/
def decodeUtf8 (bytes : Bytes) : Except Error Text := decodeUtf8From 0 0 0 0 0 0 0 bytes

end Splice.Encoding
