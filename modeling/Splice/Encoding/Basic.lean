import Splice.Text.Quoted

/-!
# Encodings

The encodings in which documents are usually stored, and why bytes or texts do not fit one.

* `Encoding` — an encoding, and `Encoding.ofName?` — the one that a name stands for; and
* `Encoding.Error` — why something cannot be decoded or encoded.
-/

namespace Splice

/-- Bytes, in order. -/
abbrev Bytes := List UInt8

/-- A way to store texts as bytes. -/
inductive Encoding where
  /-- UTF-8 without a byte order mark. -/
  | utf8
  /-- UTF-8 with a byte order mark, which is optional when reading. -/
  | utf8Marked
  /-- One byte for each of the first 256 code points. -/
  | latin1
  /-- One byte for each of the first 128 code points. -/
  | ascii
  /-- UTF-16 with a byte order mark that tells the order. -/
  | utf16Marked
  /-- UTF-16, the low byte first. -/
  | utf16Little
  /-- UTF-16, the high byte first. -/
  | utf16Big
deriving DecidableEq, Repr

namespace Encoding

/-- The names of the encodings. -/
def table : List (Text × Encoding) :=
  [("utf-8", .utf8), ("utf8", .utf8), ("utf", .utf8), ("u8", .utf8), ("utf-8-sig", .utf8Marked),
    ("latin-1", .latin1), ("latin1", .latin1), ("latin", .latin1), ("l1", .latin1),
    ("iso-8859-1", .latin1), ("iso8859-1", .latin1), ("8859", .latin1), ("cp819", .latin1),
    ("ascii", .ascii), ("us-ascii", .ascii), ("646", .ascii),
    ("utf-16", .utf16Marked), ("utf16", .utf16Marked), ("u16", .utf16Marked),
    ("utf-16-le", .utf16Little), ("utf-16le", .utf16Little),
    ("utf-16-be", .utf16Big), ("utf-16be", .utf16Big)]

/-- The encoding that a name stands for, if it is one of these. Case does not matter, and
underscores and spaces are as good as hyphens. -/
def ofName? (name : Text) : Option Encoding :=
  let plain := (Text.lower name).map fun c => if c = '_' ∨ c = ' ' then '-' else c
  table.lookup plain

/-- The name of an encoding in messages. -/
def name : Encoding → Text
  | .utf8 | .utf8Marked => "utf-8"
  | .latin1 => "latin-1"
  | .ascii => "ascii"
  | .utf16Marked => "utf-16"
  | .utf16Little => "utf-16-le"
  | .utf16Big => "utf-16-be"

/-- What is wrong with bytes. -/
inductive Fault where
  /-- No character begins with this byte. -/
  | start
  /-- A character that has begun does not go on with the next byte. -/
  | continuation
  /-- The bytes end within a character. -/
  | ending
  /-- A single byte is left over. -/
  | halfUnit
  /-- The second half of a surrogate pair stands alone. -/
  | loneLow
  /-- The first half of a surrogate pair stands alone. -/
  | loneHigh
  /-- The byte is no ASCII character. -/
  | notAscii
deriving DecidableEq, Repr

/-- The wording of a fault. -/
def Fault.message : Fault → Text
  | .start => "invalid start byte"
  | .continuation => "invalid continuation byte"
  | .ending => "unexpected end of data"
  | .halfUnit => "truncated data"
  | .loneLow => "illegal encoding"
  | .loneHigh => "illegal UTF-16 surrogate"
  | .notAscii => "ordinal not in range(128)"

/-- Why something cannot be decoded or encoded. -/
inductive Error where
  /-- No encoding has this name. -/
  | unknown (name : Text)
  /-- The bytes from `start` to `stop`, the first of which is `byte`, are no text. -/
  | undecodable (encoding : Encoding) (fault : Fault) (byte : UInt8) (start stop : Nat)
  /-- The characters from `start` to `stop`, the first of which is `char`, have no bytes. -/
  | unencodable (encoding : Encoding) (char : Char) (start stop : Nat)
  /-- The byte order is not known. -/
  | noMark
  /-- The name stands for something that is no encoding of texts. -/
  | notText (name : Text)
  /-- A further encoding refuses bytes, in these words. -/
  | refusedBytes (message : Text)
  /-- A further encoding refuses a text, in these words. -/
  | refusedText (message : Text)
deriving DecidableEq, Repr

/-- The number of code points that an encoding with one byte for each of them covers. -/
def limit : Encoding → Nat
  | .ascii => 128
  | _ => 256

/-- The wording of an error. -/
def Error.message : Error → Text
  | .unknown name => "unknown encoding: " ++ name
  | .undecodable encoding fault byte start stop =>
      '\'' :: encoding.name ++ "' codec can't decode "
        ++ (if stop = start + 1 then
              "byte 0x" ++ Text.ofHex 2 byte.toNat ++ " in position " ++ Text.ofNat start
            else "bytes in position " ++ Text.ofNat start ++ '-' :: Text.ofNat (stop - 1))
        ++ ": " ++ fault.message
  | .unencodable encoding char start stop =>
      '\'' :: encoding.name ++ "' codec can't encode "
        ++ (if stop = start + 1 then
              "character '" ++ Text.numericEscape char.toNat ++ "' in position " ++ Text.ofNat start
            else "characters in position " ++ Text.ofNat start ++ '-' :: Text.ofNat (stop - 1))
        ++ ": ordinal not in range(" ++ Text.ofNat encoding.limit ++ ")"
  | .noMark => "UTF-16 stream does not start with BOM"
  | .notText name =>
      '\'' :: name.take 400
        ++ "' is not a text encoding; use codecs.open() to handle arbitrary codecs"
  | .refusedBytes message => message
  | .refusedText message => message

end Encoding

end Splice
