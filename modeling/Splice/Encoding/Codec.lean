import Splice.Encoding.Utf8

/-!
# Decoding and encoding

* `Encoding.decode` — the text of the bytes of a file;
* `Encoding.encode` — the bytes of a text; and
* `Codecs` — the further encodings of a machine, and `Encoding.codecOf` — what a name stands for
  there.

All of them are strict: what has no exact counterpart is an error.
-/

namespace Splice

namespace Encoding

/-! ## One byte for each character -/

/-- Decodes bytes below `limit`, each to the code point with its number. -/
def decodeSingle (encoding : Encoding) (offset : Nat) : Bytes → Except Error Text
  | [] => .ok []
  | b :: rest =>
      if b.toNat < encoding.limit then
        (decodeSingle encoding (offset + 1) rest).map (Char.ofNat b.toNat :: ·)
      else .error (.undecodable encoding .notAscii b offset (offset + 1))

/-- Encodes code points below `limit`, each as one byte. An error covers all characters in a row
that have no byte. -/
def encodeSingle (encoding : Encoding) (offset : Nat) : Text → Except Error Bytes
  | [] => .ok []
  | c :: rest =>
      if c.toNat < encoding.limit then
        (encodeSingle encoding (offset + 1) rest).map (byte c.toNat :: ·)
      else
        let further := (rest.takeWhile fun c => decide (encoding.limit ≤ c.toNat)).length
        .error (.unencodable encoding c offset (offset + 1 + further))

/-! ## UTF-16 -/

/-- The bytes of a unit. -/
def unitBytes (big : Bool) (n : Nat) : Bytes :=
  if big then [byte (n / 0x100), byte (n % 0x100)] else [byte (n % 0x100), byte (n / 0x100)]

/-- The bytes of a character: one unit, or a surrogate pair. -/
def utf16Bytes (big : Bool) (c : Char) : Bytes :=
  let n := c.toNat
  if n < 0x10000 then unitBytes big n
  else
    unitBytes big (0xd800 + (n - 0x10000) / 0x400) ++ unitBytes big (0xdc00 + (n - 0x10000) % 0x400)

/-- The unit that two bytes make. -/
def unitOf (big : Bool) (a b : UInt8) : Nat :=
  if big then a.toNat * 0x100 + b.toNat else b.toNat * 0x100 + a.toNat

/-- Decodes units. `offset` counts the bytes before them. -/
def decodeUtf16 (big : Bool) (offset : Nat) : Bytes → Except Error Text
  | [] => .ok []
  | [a] => .error (.undecodable (order big) .halfUnit a offset (offset + 1))
  | a :: b :: rest =>
      let n := unitOf big a b
      -- A unit that is no surrogate is a character.
      if n < 0xd800 ∨ 0xe000 ≤ n then (decodeUtf16 big (offset + 2) rest).map (Char.ofNat n :: ·)
      else if 0xdc00 ≤ n then .error (.undecodable (order big) .loneLow a offset (offset + 2))
      else
        match rest with
        | c :: d :: rest =>
            let m := unitOf big c d
            if 0xdc00 ≤ m ∧ m < 0xe000 then
              let value := 0x10000 + (n - 0xd800) * 0x400 + (m - 0xdc00)
              (decodeUtf16 big (offset + 4) rest).map (Char.ofNat value :: ·)
            else .error (.undecodable (order big) .loneHigh a offset (offset + 2))
        | _ => .error (.undecodable (order big) .ending a offset (offset + 2 + rest.length))
where
  /-- The encoding with this byte order. -/
  order (big : Bool) : Encoding := if big then .utf16Big else .utf16Little

/-- Decodes UTF-16 whose order is told by a mark. Without a mark the bytes still have to be units
with the low byte first before the lack of a mark is the error, and bytes that hold no unit need no
mark. -/
def decodeUtf16Marked : Bytes → Except Error Text
  | 0xff :: 0xfe :: rest => decodeUtf16 false 2 rest
  | 0xfe :: 0xff :: rest => decodeUtf16 true 2 rest
  | bytes =>
      match decodeUtf16 false 0 bytes with
      | .error e => .error e
      | .ok text => if text.isEmpty then .ok [] else .error .noMark

/-! ## All encodings -/

/-- The byte order mark in UTF-8. -/
def utf8Mark : Bytes := [0xef, 0xbb, 0xbf]

/-- Decodes UTF-8 with an optional mark. A mark that is cut short counts as one. -/
def decodeUtf8Marked (bytes : Bytes) : Except Error Text :=
  match bytes with
  | 0xef :: 0xbb :: 0xbf :: rest => decodeUtf8 rest
  | [0xef, 0xbb] | [0xef] => .ok []
  | _ => decodeUtf8 bytes

/-- The text of bytes. -/
def decode (encoding : Encoding) (bytes : Bytes) : Except Error Text :=
  match encoding with
  | .utf8 => decodeUtf8 bytes
  | .utf8Marked => decodeUtf8Marked bytes
  | .latin1 | .ascii => decodeSingle encoding 0 bytes
  | .utf16Marked => decodeUtf16Marked bytes
  | .utf16Little => decodeUtf16 false 0 bytes
  | .utf16Big => decodeUtf16 true 0 bytes

/-- The bytes of a text. A mark is always written in the encodings that have one; of the two orders
it tells the one with the low byte first. -/
def encode (encoding : Encoding) (text : Text) : Except Error Bytes :=
  match encoding with
  | .utf8 => .ok (encodeUtf8 text)
  | .utf8Marked => .ok (utf8Mark ++ encodeUtf8 text)
  | .latin1 | .ascii => encodeSingle encoding 0 text
  | .utf16Marked => .ok ([0xff, 0xfe] ++ text.flatMap (utf16Bytes false))
  | .utf16Little => .ok (text.flatMap (utf16Bytes false))
  | .utf16Big => .ok (text.flatMap (utf16Bytes true))

/-! ## Further encodings -/

/-- A way to decode whole files and to encode whole texts. -/
inductive Codec where
  /-- One of the encodings above. -/
  | known (encoding : Encoding)
  /-- Another one. Its functions refuse what has no counterpart, in words of their own. -/
  | further (decode : Bytes → Except Text Text) (encode : Text → Except Text Bytes)

/-- The text of bytes. -/
def Codec.decode : Codec → Bytes → Except Error Text
  | .known encoding, bytes => encoding.decode bytes
  | .further decode _, bytes => (decode bytes).mapError .refusedBytes

/-- The bytes of a text. -/
def Codec.encode : Codec → Text → Except Error Bytes
  | .known encoding, text => encoding.encode text
  | .further _ encode, text => (encode text).mapError .refusedText

/-- What a name can stand for. -/
inductive Meaning where
  /-- Nothing. -/
  | unknown
  /-- Something that does not turn bytes into texts. -/
  | notText
  /-- A way to decode and to encode. -/
  | codec (codec : Codec)

end Encoding

/-- The encodings that a machine has besides those in the table of names. -/
class Codecs where
  /-- What a name stands for that is not in the table. -/
  meaning : Text → Encoding.Meaning

/-- A machine without further encodings. -/
instance Codecs.ofTable : Codecs := ⟨fun _ => .unknown⟩

namespace Encoding

/-- What a name stands for on a machine. -/
def codecOf [Codecs] (name : Text) : Except Error Codec :=
  match ofName? name with
  | some encoding => .ok (.known encoding)
  | none =>
      match Codecs.meaning name with
      | .unknown => .error (.unknown name)
      | .notText => .error (.notText name)
      | .codec codec => .ok codec

end Encoding

end Splice
