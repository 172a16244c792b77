import Splice.Delimiters
import Splice.Json.Parser
import Splice.Text.Blank

/-!
# Include directives

A directive names the files to include and may bind variables for them:

    opener include("path/or/*.glob", {"name": "value"}) closer

Either kind of quote may stand on either side of the path. The path ends at the first quote, and
the variables at the first closing brace, behind which the directive can end.

* `Directive` — an occurrence in a document, with the text around it;
* `Directive.find?` — the first occurrence; and
* `Directive.bindings` — the variables it binds, or why they cannot be read.
-/

namespace Splice

/-- An include directive in a document (`IncludeDirective`). The document is `before ++ text ++
after`. -/
structure Directive where
  /-- The document before the directive. -/
  before : Text
  /-- The directive as it is written. -/
  text : Text
  /-- The path or pattern of the files to include. -/
  path : Text
  /-- The variables as they are written, from brace to brace, if there are any. -/
  literal : Option Text
  /-- The document behind the directive. -/
  after : Text
deriving DecidableEq, Repr

namespace Directive

/-- The word of a directive and its opening parenthesis. -/
def keyword : Text := "include("

/-- Is the character one of the two quotes? -/
def isQuote (c : Char) : Bool := c = '"' || c = '\''

/-- What follows the end of a directive: blanks, the closing parenthesis and the closer. -/
def readEnd? (closer text : Text) : Option Text :=
  match Text.dropBlank text with
  | ')' :: rest => Text.dropLead? closer rest
  | _ => none

/-- The shortest literal that ends at a brace behind which the directive can end, given the text
behind the opening brace. The literal comes without its opening brace. -/
def readLiteral? (closer : Text) : Text → Option (Text × Text)
  | [] => none
  | c :: text =>
      match if c = '}' then readEnd? closer text else none with
      | some rest => some ([c], rest)
      | none => (readLiteral? closer text).map fun (literal, rest) => (c :: literal, rest)

/-- What may follow the path: variables behind a comma, or the end of the directive. -/
def readTail? (closer text : Text) : Option (Option Text × Text) :=
  match text with
  | ',' :: text =>
      match Text.dropBlank text with
      | '{' :: text =>
          (readLiteral? closer text).map fun (literal, rest) => (some ('{' :: literal), rest)
      | _ => none
  | _ => (readEnd? closer text).map fun rest => (none, rest)

/-- The shortest path, on one line, behind whose quote the directive can end. -/
def readPath? (closer : Text) : Text → Option (Text × Option Text × Text)
  | [] => none
  | c :: text =>
      match if isQuote c then readTail? closer text else none with
      | some (literal, rest) => some ([], literal, rest)
      | none =>
          if c = '\n' then none
          else (readPath? closer text).map fun (path, tail) => (c :: path, tail)

/-- The path, the literal and the rest, if the text begins with a directive
(`compile_include_pattern`). -/
def read? (d : Delimiters) (text : Text) : Option (Text × Option Text × Text) :=
  match Text.dropLead? (d.opener ++ keyword) text with
  | none => none
  | some rest =>
      match Text.dropBlank rest with
      | c :: rest => if isQuote c then readPath? d.closer rest else none
      | [] => none

/-- The first directive of a document (`find_first`). -/
def find? (d : Delimiters) (document : Text) : Option Directive :=
  match read? d document with
  | some (path, literal, after) =>
      some ⟨[], document.take (document.length - after.length), path, literal, after⟩
  | none =>
      match document with
      | [] => none
      | c :: rest => (find? d rest).map fun found => { found with before := c :: found.before }

/-- The offset at which the directive begins. -/
def start (directive : Directive) : Nat := directive.before.length

/-- The offset behind the directive. -/
def stop (directive : Directive) : Nat := directive.before.length + directive.text.length

/-- The document with a text in place of the directive. -/
def splice (directive : Directive) (contents : Text) : Text :=
  directive.before ++ contents ++ directive.after

/-- Why the variables of a directive cannot be read. -/
inductive Error where
  /-- The literal is no JSON value. -/
  | malformed (directive : Text) (reason : Json.Reason) (position : Text.Position)
  /-- The literal is a JSON value of another kind. -/
  | notAnObject (directive : Text)
  /-- The literal holds an integer with too many digits. -/
  | tooManyDigits (digits : Nat)
deriving DecidableEq, Repr

/-- The wording of an error. -/
def Error.message : Error → Text
  | .malformed directive reason position =>
      "Invalid variables in " ++ directive ++ ": " ++ (Json.Error.malformed reason position).message
  | .notAnObject directive =>
      "Invalid variables in " ++ directive ++ ": variables must be a JSON object"
  | .tooManyDigits digits => Json.tooManyDigitsMessage digits

/-- The variables that a directive binds (`from_match`); none if it has no literal. -/
def bindings (directive : Directive) : Except Error (Bindings Json) :=
  match directive.literal with
  | none => .ok []
  | some literal =>
      match Json.parse literal with
      | .ok (.obj fields) => .ok fields
      | .ok _ => .error (.notAnObject directive.text)
      | .error (.malformed reason position) => .error (.malformed directive.text reason position)
      | .error (.tooManyDigits digits) => .error (.tooManyDigits digits)

end Directive

end Splice
