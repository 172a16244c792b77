import Splice.CommandLine.Word
import Splice.Runner

/-!
# Commands and their arguments

The first argument that is no option names the command; what follows are the arguments of the
command: one plain argument, and options in any order.

* `CommandLine.Given` with `CommandLine.readWords` — what the words for a command give;
* `CommandLine.Invocation` — a command with all it needs; and
* `CommandLine.parse` — the invocation that arguments stand for.
-/

namespace Splice.CommandLine

/-! ## Words -/

/-- What the words for a command give. -/
structure Given where
  /-- The plain argument. -/
  plain : Option Text := none
  /-- The options and their values, in order; the value of an option that takes none is empty. -/
  options : List (Text × Text) := []
  /-- Is there a word that nothing takes? -/
  hasExtra : Bool := false
deriving DecidableEq, Repr

namespace Given

/-- Notes an option. -/
def note (given : Given) (option : Opt) (value : Text) : Given :=
  { given with options := given.options ++ [(option.name, value)] }

/-- Notes a plain argument; only the first one is taken. -/
def notePlain (given : Given) (text : Text) : Given :=
  if given.plain.isNone then { given with plain := some text } else { given with hasExtra := true }

/-- Notes a word that nothing takes. -/
def noteExtra (given : Given) : Given := { given with hasExtra := true }

/-- Notes the mark before or behind a plain argument, which goes with it unless that is not
taken. -/
def noteMark (given : Given) : Given := if given.plain.isNone then given else given.noteExtra

/-- All values of an option. -/
def values (given : Given) (name : Text) : List Text :=
  given.options.filterMap fun (key, value) => if key = name then some value else none

/-- The last value of an option. -/
def value? (given : Given) (name : Text) : Option Text := (given.values name).getLast?

/-- Is the option there? -/
def has (given : Given) (name : Text) : Bool := !(given.values name).isEmpty

end Given

/-- Notes an option with its value, if it takes that. -/
def Given.noteValue (given : Given) (option : Opt) (value : Text) : Except Stop Given :=
  match option.takes with
  | .nothing => .error .refused
  | .anyValue => .ok (given.note option value)
  | .oneOf values =>
      if values.contains value then .ok (given.note option value) else .error .refused

/-- What words give, in addition to what is given. An option that takes a value takes the plain word
behind it, unless one is attached. -/
def readWords : Given → List Word → Except Stop Given
  | given, [] => .ok given
  | given, .plain text :: .mark :: words => readWords (given.noteMark.notePlain text) words
  | given, .plain text :: words => readWords (given.notePlain text) words
  | given, .mark :: .plain text :: words => readWords (given.noteMark.notePlain text) words
  -- A mark beside a plain word is read with it; one by itself is too much.
  | given, .mark :: words => readWords given.noteExtra words
  | given, .unknown :: words => readWords given.noteExtra words
  | _, .help stop :: _ => .error stop
  | given, .option option (some value) :: words =>
      match given.noteValue option value with
      | .ok given => readWords given words
      | .error stop => .error stop
  | given, .option option none :: words =>
      if option.takes = .nothing then readWords (given.note option []) words
      else
        match words with
        | .plain value :: words =>
            match given.noteValue option value with
            | .ok given => readWords given words
            | .error stop => .error stop
        | _ => .error .refused

/-! ## Commands -/

/-- Where the global variables of a command line come from. -/
structure GlobalsSource where
  /-- Texts of the form `name=value`. -/
  items : List Text := []
  /-- The path of a JSON file. -/
  file : Option Text := none
deriving DecidableEq, Repr

/-- The options of the command that renders one file. -/
structure RenderOptions where
  /-- The path of the output, unless it is printed. -/
  out : Option Text := none
  /-- The path of a configuration file. -/
  config : Option Text := none
  /-- What stands before the names of variables. -/
  opener : Option Text := none
  /-- What stands behind the names of variables. -/
  closer : Option Text := none
  /-- The directory in which include paths start. -/
  includesDir : Option Text := none
  /-- The directory to which the variable `docroot` leads. -/
  docroot : Option Text := none
  /-- The name of the encoding. -/
  encoding : Option Text := none
  /-- Are documents left unrendered? -/
  noMustache : Bool := false
  /-- Are values inserted without escaping? -/
  unescaped : Bool := false
deriving DecidableEq, Repr

/-- A command. -/
inductive Command where
  /-- Processes the files that a configuration lists, or only checks the configuration. -/
  | run (config : Text) (dryRun : Bool)
  /-- Renders one file. -/
  | render (file : Text) (options : RenderOptions)
deriving DecidableEq, Repr

/-- A command with all it needs. -/
structure Invocation where
  /-- The command. -/
  command : Command
  /-- The global variables. -/
  globals : GlobalsSource := {}
  /-- The least severity that is reported. -/
  threshold : Severity := .info
deriving DecidableEq, Repr

/-- The least severities that may be chosen. -/
def levels : List (Text × Severity) :=
  [("debug", .info), ("info", .info), ("warn", .warning), ("error", .error)]

/-- The options that all commands know. -/
def commonOptions : List Opt := [
  { name := "--global" }, { name := "--globals-file" },
  { name := "--debug", takes := .nothing }, { name := "--quiet", takes := .nothing },
  { name := "--verbose", takes := .nothing },
  { name := "--log-level", takes := .oneOf (levels.map Prod.fst) }]

/-- The options of the command that processes a configuration. -/
def runOptions : List Opt := { name := "--dry-run", takes := .nothing } :: commonOptions

/-- The options of the command that renders one file. -/
def renderOptions : List Opt := [
  { name := "--out" }, { name := "--config" }, { name := "--prefix" }, { name := "--suffix" },
  { name := "--includes-dir" }, { name := "--docroot" }, { name := "--encoding" },
  { name := "--no-mustache", takes := .nothing }, { name := "--unescaped", takes := .nothing }]
    ++ commonOptions

/-- The least severity that is reported. -/
def Given.threshold (given : Given) : Severity :=
  if given.has "--debug" then .info
  else if given.has "--quiet" then .error
  else if given.has "--verbose" then .info
  else ((given.value? "--log-level").bind fun level => levels.lookup level).getD .info

/-- A path that an option gives; the empty one is none. -/
def Given.path? (given : Given) (name : Text) : Option Text :=
  (given.value? name).filter fun path => !path.isEmpty

/-- The sources of global variables. -/
def Given.globals (given : Given) : GlobalsSource where
  items := given.values "--global"
  file := given.path? "--globals-file"

/-- The options of the command that renders one file. -/
def Given.render (given : Given) : RenderOptions where
  out := given.path? "--out"
  config := given.path? "--config"
  opener := given.value? "--prefix"
  closer := given.value? "--suffix"
  includesDir := given.value? "--includes-dir"
  docroot := given.value? "--docroot"
  encoding := given.value? "--encoding"
  noMustache := given.has "--no-mustache"
  unescaped := given.has "--unescaped"

/-- What the arguments of a command give. -/
def readArguments (known : List Opt) (args : List Text) : Except Stop (Text × Given) := do
  let given ← readWords {} (← words known args)
  match given.plain with
  | none => throw .refused
  | some text => if given.hasExtra then throw .refused else return (text, given)

/-- The invocation of the command with a name. -/
def readCommand (name : Text) (args : List Text) : Except Stop Invocation := do
  if name = ("run" : Text) then
    let (config, given) ← readArguments runOptions args
    return ⟨.run config (given.has "--dry-run"), given.globals, given.threshold⟩
  else if name = ("render" : Text) then
    let (file, given) ← readArguments renderOptions args
    return ⟨.render file given.render, given.globals, given.threshold⟩
  else throw .refused

/-- The command in arguments with the words that they are, unless there is none. An unknown option
before the command is refused once the arguments of the command have been read. -/
def findCommand (hasExtra : Bool) : List (Word × Text) → Except Stop (Option Invocation)
  | [] => if hasExtra then .error .refused else .ok none
  | (.plain name, _) :: args => do
      let invocation ← readCommand name (args.map Prod.snd)
      if hasExtra then throw .refused else return some invocation
  | (.unknown, _) :: args => findCommand true args
  | (.help stop, _) :: _ => .error stop
  | (.mark, _) :: _ | (.option _ _, _) :: _ => .error .refused

/-- The invocation that arguments stand for (`create_parser`); there is none if they name no
command. -/
def parse (args : List Text) : Except Stop (Option Invocation) := do
  findCommand false ((← words [] args).zip args)

end Splice.CommandLine
