import Splice.Mustache.Tag

/-!
# Templates

A template is a list of nodes: text, values, and parts that are rendered for a value. Tags that do
not insert a value may stand alone on a line, which they then use up together with its line end.

* `Mustache.Node` — a piece of a template;
* `Mustache.parse` — the nodes of a text, or why it is no template; and
* `Mustache.Error` — these reasons. A part that is never closed is none: the template is then what
  stands in the innermost open part.
-/

namespace Splice.Mustache

/-- The delimiters that a template begins with. -/
def standardDelimiters : Delimiters := ⟨"\x7b\x7b", "\x7d\x7d"⟩

/-- A piece of a template. -/
inductive Node where
  /-- Text that stands for itself. -/
  | text (t : Text)
  /-- The value of a key with its special characters escaped. -/
  | escaped (key : Text)
  /-- The value of a key as it is. -/
  | unescaped (key : Text)
  /-- A part that is rendered for each item of the value of the key. -/
  | block (key : Text) (body : List Node)
  /-- A part that is rendered if the key has no value. -/
  | inverse (key : Text) (body : List Node)
  /-- Another template, whose lines are indented. -/
  | embed (key : Text) (indent : Text)
deriving Repr

/-- Why a text is no template. -/
inductive Error where
  /-- The end of a part at `offset` does not fit the innermost open part, if any. -/
  | mismatch (offset : Nat) (found : Text) (opened : Option Text)
  /-- A tag that changes the delimiters does not give two. -/
  | missingDelimiter
deriving DecidableEq, Repr

/-- The wording of an error. -/
def Error.message : Error → Text
  | .mismatch offset found opened =>
      "Section end tag mismatch at position " ++ Text.ofNat offset ++ ". Found \x7b\x7b/" ++ found
        ++ "\x7d\x7d, expected \x7b\x7b"
        ++ (match opened with
          | some key => '/' :: key
          | none => '#' :: found)
        ++ "\x7d\x7d"
  | .missingDelimiter => "list index out of range"

/-- A part that is still open. -/
structure Frame where
  /-- Is it rendered if the key has no value? -/
  inverse : Bool
  /-- The key that opened it. -/
  key : Text
  /-- The nodes before it, last first. -/
  outer : List Node

/-- The node of a part that has been closed. -/
def Frame.close (frame : Frame) (body : List Node) : Node :=
  if frame.inverse then .inverse frame.key body else .block frame.key body

/-- Is the character the end of a line? -/
def isLineEnd (c : Char) : Bool := c = '\r' || c = '\n'

/-- Adds text to nodes that are given last first, unless it is empty. -/
def addText (t : Text) (nodes : List Node) : List Node :=
  if t.isEmpty then nodes else .text t :: nodes

/-- The text behind one line end: a carriage return, a line feed, or both in this order. -/
def dropLineEnd (text : Text) : Text :=
  let text := match text with
    | '\r' :: rest => rest
    | _ => text
  match text with
  | '\n' :: rest => rest
  | _ => text

/-- Does a tag stand alone, given the character before its indentation and the text behind it? -/
def standsAlone (previous : Option Char) (tag : Tag) (after : Text) : Bool :=
  previous.all isLineEnd && (after.head?).all isLineEnd && !tag.isValue

/-- Reads tags until the text ends. `total` is the length of the template, `previous` the character
before `text`, `nodes` the nodes of the innermost open part, last first. Each round consumes a tag,
so `fuel` as large as the text suffices. -/
def parseFrom (total : Nat) : (fuel : Nat) → Delimiters → List Frame → List Node → Option Char →
    Text → Except Error (List Node)
  | 0, _, _, nodes, _, text => .ok (addText text nodes).reverse
  | fuel + 1, d, frames, nodes, previous, text =>
    match findTag? d text with
    | none => .ok (addText text nodes).reverse
    | some ⟨before, indent, tag, after⟩ =>
        -- A tag that stands alone takes its whole line with it.
        let alone := standsAlone (before.getLast?.or previous) tag after
        let rest := if alone then dropLineEnd after else after
        let nodes := addText (if alone then before else before ++ indent) nodes
        let previous := (text.take (text.length - rest.length)).getLast?.or previous
        match tag with
        | .openBlock key =>
            parseFrom total fuel d (⟨false, key, nodes⟩ :: frames) [] previous rest
        | .openInverse key =>
            parseFrom total fuel d (⟨true, key, nodes⟩ :: frames) [] previous rest
        | .close key =>
            -- Only the innermost open part can be closed.
            let mismatch := Error.mismatch (total - rest.length) key (frames.head?.map Frame.key)
            match frames with
            | [] => .error mismatch
            | frame :: frames =>
                if frame.key = key then
                  let node := frame.close nodes.reverse
                  parseFrom total fuel d frames (node :: frame.outer) previous rest
                else .error mismatch
        | .delimiters written =>
            match Text.words written with
            | opener :: closer :: _ =>
                parseFrom total fuel ⟨opener, closer⟩ frames nodes previous rest
            | _ => .error .missingDelimiter
        | .comment => parseFrom total fuel d frames nodes previous rest
        | .escaped key => parseFrom total fuel d frames (.escaped key :: nodes) previous rest
        | .unescaped key => parseFrom total fuel d frames (.unescaped key :: nodes) previous rest
        | .embed key =>
            let node := Node.embed key (if alone then indent else [])
            parseFrom total fuel d frames (node :: nodes) previous rest

/-- The nodes of a template. -/
def parse (template : Text) : Except Error (List Node) :=
  parseFrom template.length template.length standardDelimiters [] [] none template

end Splice.Mustache
