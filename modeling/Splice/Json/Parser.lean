import Splice.Json.Basic

/-!
# Reading JSON

The reader walks the text from the left; each step gives the value it read and the text behind it,
or the reason why it stopped with the text from that place on. Beyond the standard grammar it
accepts the numbers `NaN`, `Infinity` and `-Infinity`. Of a repeated field name the last value
counts, at the place of the first.

* `Json.readString`, `Json.readNumber`, `Json.readValue` — the steps; and
* `Json.parse` — reads a whole text.
-/

namespace Splice.Json

/-- Where and why reading stopped. -/
inductive Stop where
  /-- The text from `rest` on does not continue a value. -/
  | at (reason : Reason) (rest : Text)
  /-- An integer has too many digits. -/
  | tooManyDigits (digits : Nat)

/-- A step gives what it read and the rest of the text. -/
abbrev Step (α : Type) := Except Stop (α × Text)

/-- Is the character white space between tokens? -/
def isSpace (c : Char) : Bool := c = ' ' || c = '\t' || c = '\n' || c = '\r'

/-- The text without leading white space. -/
def skipSpace (text : Text) : Text := text.dropWhile isSpace

/-! ## Strings -/

/-- The character that a one-letter escape stands for. -/
def simpleEscape? : Char → Option Char
  | '"' => some '"'
  | '\\' => some '\\'
  | '/' => some '/'
  | 'b' => some '\x08'
  | 'f' => some '\x0c'
  | 'n' => some '\n'
  | 'r' => some '\r'
  | 't' => some '\t'
  | _ => none

/-- The number of four hexadecimal digits. -/
def hex4? (a b c d : Char) : Option Nat := do
  let a ← Text.hexDigit? a
  let b ← Text.hexDigit? b
  let c ← Text.hexDigit? c
  let d ← Text.hexDigit? d
  return 4096 * a + 256 * b + 16 * c + d

/-- Is the number the first half of a surrogate pair? -/
def isHighSurrogate (n : Nat) : Bool := 0xd800 ≤ n && n < 0xdc00

/-- Is the number the second half of a surrogate pair? -/
def isLowSurrogate (n : Nat) : Bool := 0xdc00 ≤ n && n < 0xe000

/-- The code point of a surrogate pair. -/
def joinSurrogates (high low : Nat) : Nat :=
  0x10000 + (high - 0xd800) * 0x400 + (low - 0xdc00)

/-- Reads the digits of a numeric escape, given the text from its letter `u` on. A character has to
follow the digits. Two escapes that form a surrogate pair are one character. -/
def readNumericEscape (fromLetter : Text) : Step Char :=
  match fromLetter with
  | _ :: a :: b :: c :: d :: next :: rest =>
      match hex4? a b c d with
      | none => .error (.at .badNumericEscape fromLetter)
      | some n =>
          -- Half of a surrogate pair stays by itself if the other half does not follow.
          let alone : Char × Text := (Char.ofNat n, next :: rest)
          if !isHighSurrogate n then .ok alone
          else match next, rest with
            | '\\', 'u' :: e :: f :: g :: h :: after :: more =>
                match hex4? e f g h with
                | none => .error (.at .badNumericEscape rest)
                | some m =>
                    if isLowSurrogate m then
                      .ok (Char.ofNat (joinSurrogates n m), after :: more)
                    else .ok alone
            | _, _ => .ok alone
  | _ => .error (.at .badNumericEscape fromLetter)

/-- Reads the body of a string and its closing quote. `start` is the text from the opening quote on.
Each round of the recursion consumes a character, so `fuel` as large as the text suffices. -/
def readString (start : Text) : Nat → Text → Step Text
  | 0, _ => .error (.at .openString start)
  | fuel + 1, text =>
    match text with
    | [] => .error (.at .openString start)
    | '"' :: rest => .ok ([], rest)
    | '\\' :: rest =>
        match rest with
        | [] => .error (.at .openString start)
        | 'u' :: _ =>
            match readNumericEscape rest with
            | .error stop => .error stop
            | .ok (c, rest) => (readString start fuel rest).map fun (s, rest) => (c :: s, rest)
        | e :: rest =>
            match simpleEscape? e with
            | none => .error (.at .badEscape text)
            | some c => (readString start fuel rest).map fun (s, rest) => (c :: s, rest)
    | c :: rest =>
        if c.toNat < 0x20 then .error (.at .controlCharacter text)
        else (readString start fuel rest).map fun (s, rest) => (c :: s, rest)

/-! ## Numbers -/

/-- The leading digits of a text and what follows them. -/
def spanDigits (text : Text) : Text × Text :=
  (text.takeWhile Char.isDigit, text.dropWhile Char.isDigit)

/-- The number that decimal digits spell. -/
def decimalValue (digits : Text) : Nat :=
  Text.digitsValue 10 (digits.map fun c => c.toNat - '0'.toNat)

/-- The digits before a point: a lone zero, or digits that do not begin with a zero. -/
def spanWhole? : Text → Option (Text × Text)
  | '0' :: rest => some (['0'], rest)
  | c :: text => if c.isDigit then some (spanDigits (c :: text)) else none
  | [] => none

/-- The digits behind a point, if the text continues with a point and a digit. -/
def spanFraction? : Text → Option (Text × Text)
  | '.' :: text =>
      let (digits, rest) := spanDigits text
      if digits.isEmpty then none else some (digits, rest)
  | _ => none

/-- The sign of an exponent, which may be missing, and what follows it. -/
def spanSign : Text → Bool × Text
  | '-' :: text => (true, text)
  | '+' :: text => (false, text)
  | text => (false, text)

/-- An exponent with its sign, if the text continues with one that has a digit. -/
def spanExponent? : Text → Option (Int × Text)
  | e :: text =>
      if e = 'e' ∨ e = 'E' then
        let (negative, text) := spanSign text
        let (digits, rest) := spanDigits text
        if digits.isEmpty then none
        else
          let n : Int := decimalValue digits
          some (if negative then -n else n, rest)
      else none
  | [] => none

/-- Reads the numeral behind the sign. `start` is the text from the sign on. -/
def readUnsigned (negative : Bool) (start text : Text) : Step Json :=
  match spanWhole? text with
  | none => .error (.at .noValue start)
  | some (whole, rest) =>
      let fraction? := spanFraction? rest
      let (fraction, rest) := fraction?.getD ([], rest)
      let exponent? := spanExponent? rest
      let (exponent, rest) := exponent?.getD (0, rest)
      if fraction?.isNone && exponent?.isNone then
        if maxDigits < whole.length then .error (.tooManyDigits whole.length)
        else
          let n : Int := decimalValue whole
          .ok (.int (if negative then -n else n), rest)
      else
        let digits := decimalValue (whole ++ fraction)
        .ok (.float (.ofDecimal negative digits (exponent - fraction.length)), rest)

/-- Reads a numeral. -/
def readNumber (text : Text) : Step Json :=
  match text with
  | '-' :: rest => readUnsigned true text rest
  | _ => readUnsigned false text text

/-! ## Values -/

/-- The words that stand for a value. -/
def words : List (Text × Json) :=
  [("null", .null), ("true", .bool true), ("false", .bool false), ("NaN", .float .nan),
    ("Infinity", .float (.infinite false)), ("-Infinity", .float (.infinite true))]

/-- Reads a word or a numeral. -/
def readAtom (text : Text) : Step Json :=
  match words.findSome? fun (word, value) => (Text.dropLead? word text).map fun rest =>
    (value, rest)
  with
  | some found => .ok found
  | none => readNumber text

mutual

/-- Reads a value at the beginning of a text. A round of the recursion that does not consume a
character is followed by one that does, so twice the length of the text is fuel enough. -/
def readValue : Nat → Text → Step Json
  | 0, text => .error (.at .noValue text)
  | fuel + 1, text =>
    match text with
    | '"' :: rest => (readString text (rest.length + 1) rest).map fun (s, rest) => (.str s, rest)
    | '[' :: rest =>
        match skipSpace rest with
        | ']' :: rest => .ok (.arr [], rest)
        | rest => (readItems fuel rest).map fun (items, rest) => (.arr items, rest)
    | '{' :: rest =>
        match skipSpace rest with
        | '}' :: rest => .ok (.obj [], rest)
        | rest =>
            (readFields fuel rest).map fun (fields, rest) => (.obj (Bindings.ofList fields), rest)
    | _ => readAtom text

/-- Reads the items of an array, from an item to the closing bracket. -/
def readItems : Nat → Text → Step (List Json)
  | 0, text => .error (.at .noValue text)
  | fuel + 1, text =>
    match readValue fuel text with
    | .error stop => .error stop
    | .ok (item, rest) =>
        match skipSpace rest with
        | ']' :: rest => .ok ([item], rest)
        | ',' :: rest =>
            (readItems fuel (skipSpace rest)).map fun (items, rest) => (item :: items, rest)
        | rest => .error (.at .noComma rest)

/-- Reads the fields of an object, from a name to the closing brace. -/
def readFields : Nat → Text → Step (List (Text × Json))
  | 0, text => .error (.at .noName text)
  | fuel + 1, text =>
    match text with
    | '"' :: inside =>
        match readString text (inside.length + 1) inside with
        | .error stop => .error stop
        | .ok (name, rest) =>
            match skipSpace rest with
            | ':' :: rest =>
                match readValue fuel (skipSpace rest) with
                | .error stop => .error stop
                | .ok (value, rest) =>
                    match skipSpace rest with
                    | '}' :: rest => .ok ([(name, value)], rest)
                    | ',' :: rest =>
                        (readFields fuel (skipSpace rest)).map fun (fields, rest) =>
                          ((name, value) :: fields, rest)
                    | rest => .error (.at .noComma rest)
            | rest => .error (.at .noColon rest)
    | _ => .error (.at .noName text)

end

/-- The error of a reader that stopped in `whole`. -/
def Stop.toError (whole : Text) : Stop → Error
  | .at reason rest => .malformed reason (.ofRest whole rest)
  | .tooManyDigits digits => .tooManyDigits digits

/-- Reads a whole text: one value between white space. -/
def parse (text : Text) : Except Error Json :=
  if Text.hasLead ['\uFEFF'] text then .error (.malformed .byteOrderMark (.ofRest text text))
  else
    match readValue (2 * text.length + 2) (skipSpace text) with
    | .error stop => .error (stop.toError text)
    | .ok (value, rest) =>
        match skipSpace rest with
        | [] => .ok value
        | rest => .error (.malformed .extra (.ofRest text rest))

end Splice.Json
