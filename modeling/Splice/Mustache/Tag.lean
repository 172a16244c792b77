import Splice.Delimiters
import Splice.Text.Blank

/-!
# Template tags

A tag stands between an opener and a closer, which may change within a template but are never empty
and never hold a blank. The character behind the opener tells the kind of the tag.

* `Mustache.Tag` — a tag;
* `Mustache.Tag.read?` — the tag behind an opener; and
* `Mustache.findTag?` — the first tag of a text, with the text around it.
-/

namespace Splice.Mustache

/-- A template tag. -/
inductive Tag where
  /-- `=open close=`: other delimiters from here on, as they are written. -/
  | delimiters (written : Text)
  /-- A key: its value is inserted with its special characters escaped. -/
  | escaped (key : Text)
  /-- `\x7bkey\x7d` or `&key`: its value is inserted as it is. -/
  | unescaped (key : Text)
  /-- `!`: nothing is inserted. -/
  | comment
  /-- `>key`: another template is inserted. -/
  | embed (key : Text)
  /-- `#key`: begins a part that is rendered for the value of the key. -/
  | openBlock (key : Text)
  /-- `^key`: begins a part that is rendered if the key has no value. -/
  | openInverse (key : Text)
  /-- `/key`: ends a part. -/
  | close (key : Text)
deriving DecidableEq, Repr

namespace Tag

/-- Does the tag insert the value of a key? Other tags may have a line of their own. -/
def isValue : Tag → Bool
  | .escaped _ | .unescaped _ => true
  | _ => false

/-- The kind of tag that a character behind the opener makes. -/
def kind? : Char → Option (Text → Tag)
  | '!' => some fun _ => .comment
  | '>' => some .embed
  | '&' => some .unescaped
  | '/' => some .close
  | '#' => some .openBlock
  | '^' => some .openInverse
  | _ => none

/-- What follows an end mark that may stand behind blanks. -/
def readMark? (mark text : Text) : Option Text := Text.dropLead? mark (Text.dropBlank text)

/-- What follows two end marks, each behind blanks. -/
def readMarks? (first second text : Text) : Option Text :=
  (readMark? first text).bind (readMark? second)

/-- The shortest key that is not empty and at whose end `stop` succeeds. With `oneLine` the key
holds no line feed. -/
def shortestKey? (oneLine : Bool) (stop : Text → Option Text) : Text → Option (Text × Text)
  | [] => none
  | c :: text =>
      if oneLine && c = '\n' then none
      else
        match stop text with
        | some rest => some ([c], rest)
        | none => (shortestKey? oneLine stop text).map fun (key, rest) => (c :: key, rest)

/-- A key behind blanks. The blanks belong to the key only if there is no key behind them: the
places at which the key may begin are tried from behind the last blank backwards. -/
def keyAfterBlanks? (oneLine : Bool) (stop : Text → Option Text) (text : Text) :
    Option (Text × Text) :=
  match text with
  | [] => none
  | c :: rest =>
      if Text.isBlank c then
        match keyAfterBlanks? oneLine stop rest with
        | some found => some found
        | none => shortestKey? oneLine stop text
      else shortestKey? oneLine stop text

/-- The tag behind its opener and the blanks that follow it. -/
def readAtKind? (closer text : Text) : Option (Tag × Text) :=
  let special? : Option (Tag × Text) := match text with
    | '=' :: inside =>
        (keyAfterBlanks? true (readMarks? ['='] closer) inside).map fun (written, rest) =>
          (.delimiters written, rest)
    | '\x7b' :: inside =>
        (keyAfterBlanks? true (readMarks? ['\x7d'] closer) inside).map fun (key, rest) =>
          (.unescaped key, rest)
    | _ => none
  let typed? : Option (Tag × Text) := match text with
    | [] => none
    | c :: inside =>
        match kind? c with
        | none => none
        | some tag =>
            (keyAfterBlanks? false (readMark? closer) inside).map fun (key, rest) => (tag key, rest)
  -- If its marks are not closed, the tag may still be one of another kind.
  special?.orElse fun _ => typed?

/-- The tag behind its opener, with what follows its closer. If nothing else fits, the text behind
the opener is a key, blanks included if need be. -/
def read? (closer text : Text) : Option (Tag × Text) :=
  (readAtKind? closer (Text.dropBlank text)).orElse fun _ =>
    (keyAfterBlanks? false (readMark? closer) text).map fun (key, rest) => (.escaped key, rest)

end Tag

/-- A tag in a text. The text is `before ++ indent ++ (the tag) ++ after`. -/
structure TagMatch where
  /-- The text before the tag and its indentation. -/
  before : Text
  /-- The spaces and tabs in front of the tag. -/
  indent : Text
  /-- The tag. -/
  tag : Tag
  /-- The text behind the tag. -/
  after : Text
deriving DecidableEq, Repr

/-- Is the character a space or a tab? -/
def isIndent (c : Char) : Bool := c = ' ' || c = '\t'

/-- The tag that the text begins with, behind its indentation. -/
def tagHere? (d : Delimiters) (text : Text) : Option TagMatch :=
  match Text.dropLead? d.opener (text.dropWhile isIndent) with
  | none => none
  | some inside =>
      (Tag.read? d.closer inside).map fun (tag, after) =>
        ⟨[], text.takeWhile isIndent, tag, after⟩

/-- The first tag of a text. -/
def findTag? (d : Delimiters) (text : Text) : Option TagMatch :=
  match tagHere? d text with
  | some found => some found
  | none =>
      match text with
      | [] => none
      | c :: rest => (findTag? d rest).map fun found => { found with before := c :: found.before }

end Splice.Mustache
