import Splice.Text.Digit

/-!
# Words of a command line

An argument that begins with a hyphen is an option, unless it is a number or holds a space. A long
option may be shortened as long as no other begins alike, and its value may be attached with an
equals sign. Behind two hyphens that stand alone nothing is an option.

* `CommandLine.Opt` — the long options that a command knows;
* `CommandLine.Word` — what an argument is; and
* `CommandLine.words` — the words that arguments are.
-/

namespace Splice.CommandLine

/-- How the reading of arguments ends early. -/
inductive Stop where
  /-- Help is asked for. -/
  | help
  /-- The arguments make no sense. -/
  | refused
deriving DecidableEq, Repr

/-- What an option takes. -/
inductive Takes where
  /-- The option takes no value. -/
  | nothing
  /-- The option takes any value. -/
  | anyValue
  /-- The option takes one of these values. -/
  | oneOf (values : List Text)
deriving DecidableEq, Repr

/-- A long option. -/
structure Opt where
  /-- Its name, with the hyphens. -/
  name : Text
  /-- What it takes. -/
  takes : Takes := .anyValue
deriving DecidableEq, Repr

/-- What an argument is. -/
inductive Word where
  /-- An argument that is no option. -/
  | plain (text : Text)
  /-- Two hyphens that stand alone. -/
  | mark
  /-- The option for help, with what comes of it. -/
  | help (stop : Stop)
  /-- Another option, perhaps with a value attached. -/
  | option (known : Opt) (attached : Option Text)
  /-- An option that is not known. -/
  | unknown
deriving DecidableEq, Repr

/-- What comes of the short option for help with more letters behind it. Options that take nothing
may be written in one word; only this one is known. -/
def shortHelp : Text → Stop
  | [] => .help
  | 'h' :: letters => shortHelp letters
  | '=' :: _ | '-' :: _ => .refused
  | _ => .help

/-- Is the character a decimal digit of any script? -/
def isDigit (c : Char) : Bool := (Text.digit? c).isSome

/-- Is the text, which follows a hyphen, a number? -/
def isNumber (text : Text) : Bool :=
  let text := Text.dropFinalBreak text
  match text.dropWhile isDigit with
  | [] => !text.isEmpty
  | '.' :: fraction => !fraction.isEmpty && fraction.all isDigit
  | _ => false

/-- An argument that begins with a hyphen and is no option that is known. -/
def unknownWord (arg : Text) : Word :=
  if isNumber (arg.drop 1) || arg.contains ' ' then .plain arg else .unknown

/-- The name of the option for help. -/
def helpName : Text := "--help"

/-- An option with this name, perhaps with a value attached. -/
def knownWord (known : List Opt) (name : Text) (attached : Option Text) : Word :=
  match known.find? fun option => option.name == name with
  | some option => .option option attached
  | none => .help (if attached.isSome then .refused else .help)

/-- An argument that begins with two hyphens. The name of an option counts before longer ones that
begin alike. -/
def longWord (known : List Opt) (arg : Text) : Except Stop Word :=
  let (name, attached) : Text × Option Text := match Text.cut? '=' arg with
    | some (name, value) => (name, some value)
    | none => (arg, none)
  let names := helpName :: known.map Opt.name
  if names.contains name then .ok (knownWord known name attached)
  else
    match names.filter (Text.hasLead name) with
    | [] => .ok (unknownWord arg)
    | [name] => .ok (knownWord known name attached)
    | _ => .error .refused

/-- What an argument is that is not the mark. -/
def word (known : List Opt) (arg : Text) : Except Stop Word :=
  match arg with
  | '-' :: '-' :: _ => longWord known arg
  | '-' :: 'h' :: letters => .ok (.help (shortHelp letters))
  | ['-'] => .ok (.plain arg)
  | '-' :: _ => .ok (unknownWord arg)
  | _ => .ok (.plain arg)

/-- The words that arguments are. -/
def words (known : List Opt) : List Text → Except Stop (List Word)
  | [] => .ok []
  | arg :: args =>
      if arg = ['-', '-'] then .ok (.mark :: args.map .plain)
      else do return (← word known arg) :: (← words known args)

end Splice.CommandLine
