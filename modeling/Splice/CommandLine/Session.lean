import Splice.CommandLine.Globals
import Splice.Config.Load

/-!
# Sessions

A session is one call of the program: the arguments decide what is done to the file tree, and the
program leaves what it prints, its reports, and an exit code.

* `CommandLine.Error` with `Error.treatment` — what may go wrong, and how that is reported;
* `CommandLine.Session` — what a call leaves;
* `CommandLine.run`, `CommandLine.render` — the commands; and
* `CommandLine.execute` — a call with its arguments.

The command that renders a file lets some errors through, which then end the program.
-/

namespace Splice.CommandLine

/-! ## Errors -/

/-- What may go wrong in a command. -/
inductive Error where
  /-- There is no configuration. -/
  | load (error : Config.LoadError)
  /-- There are no global variables. -/
  | globals (error : GlobalsError)
  /-- A document cannot be expanded or written. -/
  | expansion (failure : Failure)
deriving DecidableEq, Repr

/-- How an error is reported. -/
inductive Treatment where
  /-- In its own words, with this exit code. -/
  | plain (code : Nat)
  /-- As a file that does not exist. -/
  | missing
  /-- As something that is not valid. -/
  | invalid
  /-- As something that was not expected. -/
  | unexpected
  /-- Not at all: it ends the program. -/
  | leaving
deriving DecidableEq, Repr

/-- How errors of files are reported. -/
def fileTreatment : File.Error → Treatment
  | .tree .missing _ => .missing
  | .tree _ _ => .unexpected
  | .encoding (.unknown _) | .encoding (.notText _) => .unexpected
  | .nullInPath | .nullInDirectory | .nullInEncoding | .encoding _ => .invalid

/-- How failures of a hook are reported, by the class of the error. -/
def hookTreatment : Hook.Failure → Treatment
  | .own code _ | .problems code _ => .plain code
  | .missing _ => .missing
  | .invalid _ => .invalid
  | .other _ => .unexpected
  | .leaving _ => .leaving

/-- How errors of an expansion are reported. -/
def failureTreatment : Failure → Treatment
  | .directive (.tooManyDigits _) => .invalid
  | .directive _ => .plain 2
  | .tooDeep _ _ => .plain 1
  | .file error => fileTreatment error
  | .template _ => .unexpected
  | .hook failure => hookTreatment failure
  | .unshowable => .invalid

/-- How errors of a document are reported. -/
def documentTreatment : Yaml.Error → Treatment
  | .numberTooLarge | .noDigits | .notATruthValue _ | .notATime => .unexpected
  | _ => .invalid

/-- How errors of global variables are reported. -/
def globalsTreatment : GlobalsError → Treatment
  | .noFile _ => .missing
  | .file error => fileTreatment error
  | .json _ | .notAnObject _ | .badItem _ => .invalid

/-- How an error is reported. -/
def Error.treatment : Error → Treatment
  | .load (.options (.invalid _)) => .plain 2
  | .load (.options (.hook .emptyModule)) => .invalid
  | .load (.options (.hook _)) => .unexpected
  | .load (.file error) => fileTreatment error
  | .load (.document error) => documentTreatment error
  | .globals error => globalsTreatment error
  | .expansion failure => failureTreatment failure

/-- The wording of an error, one line for each of several problems. -/
def Error.messages : Error → List Text
  | .load (.options (.invalid findings)) => findings.map Config.Finding.message
  | .load (.options (.hook error)) => [error.message]
  | .load (.file error) => [error.message]
  | .load (.document error) => [error.message]
  | .globals error => [error.message]
  | .expansion failure => [failure.message]

/-- The wording of an error when a file is rendered: of the problems with which a hook fails there
is one line each. -/
def Error.lines : Error → List Text
  | .expansion (.hook (.problems _ lines)) => lines
  | error => error.messages

/-- What stands before the wording of an error. -/
def Treatment.heading : Treatment → Text
  | .plain _ | .leaving => []
  | .missing => "File not found: "
  | .invalid => "Validation error: "
  | .unexpected => "Unexpected error: "

/-- The exit code for an error. -/
def Treatment.code : Treatment → Nat
  | .plain code => code
  | .invalid => 2
  | .missing | .unexpected | .leaving => 1

/-! ## Sessions -/

/-- How a call ends. -/
inductive Exit where
  /-- With an exit code. -/
  | returned (code : Nat)
  /-- Before any command, because of the arguments. -/
  | stopped (stop : Stop)
  /-- With an error that no command deals with. -/
  | escaped (error : Error)
deriving DecidableEq, Repr

/-- What a call leaves. -/
structure Session where
  /-- The file tree. -/
  tree : Tree
  /-- The reports, in order. -/
  log : Log := []
  /-- What is printed. -/
  output : Text := []
  /-- How the call ends. -/
  exit : Exit := .returned 0

namespace Session

/-- Adds a report. -/
def report (session : Session) (severity : Severity) (message : Text) : Session :=
  { session with log := session.log ++ [⟨severity, message⟩] }

/-- Ends a session with an error that is reported in these words. -/
def failWith (session : Session) (error : Error) (messages : List Text) : Session :=
  let treatment := error.treatment
  let reports := messages.map fun message =>
    (⟨.error, treatment.heading ++ message⟩ : LogEntry)
  { session with log := session.log ++ reports, exit := .returned treatment.code }

/-- Ends a session with an error that nobody deals with. -/
def escape (session : Session) (error : Error) : Session := { session with exit := .escaped error }

/-- Ends a session with an error, which is reported unless it is to end the program. -/
def fail (session : Session) (error : Error) : Session :=
  if error.treatment = .leaving then session.escape error
  else session.failWith error error.messages

/-- Ends a session with an error, which is only reported if it was expected. -/
def failExpected (session : Session) (error : Error) : Session :=
  if error.treatment = .unexpected ∨ error.treatment = .leaving then session.escape error
  else session.failWith error error.lines

/-- Ends a session with a message and the exit code 1. -/
def refuse (session : Session) (message : Text) : Session :=
  { session.report .error message with exit := .returned 1 }

/-- The session with only the reports that are severe enough. -/
def atLeast (session : Session) (threshold : Severity) : Session :=
  { session with
    log := session.log.filter fun entry => decide (threshold.rank ≤ entry.severity.rank) }

end Session

/-- A number of things in words. -/
def countOf (n : Nat) (thing : Text) : Text := Text.ofNat n ++ ' ' :: thing ++ "(s)"

/-! ## Processing a configuration -/

/-- The configuration with the global variables of the command line. -/
def complete (tree : Tree) (source : GlobalsSource) (loaded : Except Config.LoadError Config) :
    Except Error Config := do
  let config ← loaded.mapError .load
  let globals ← (readGlobals tree source).mapError .globals
  return config.withGlobals globals

/-- Processes the files of a configuration with a new runner. -/
def process [Codecs] (fuel : Nat) (config : Config) (session : Session) : Option Session :=
  match Expansion.prepare config with
  | .error failure => some (session.fail (.expansion failure))
  | .ok () =>
      match Runner.run config fuel { tree := session.tree, log := session.log } with
      | none => none
      | some (runner, .error failure) =>
          let session := { session with tree := runner.tree, log := runner.log }
          some (session.fail (.expansion failure))
      | some (runner, .ok record) =>
          let session := { session with tree := runner.tree, log := runner.log }
          some (session.report .info
            ("Processed " ++ countOf record.processed.length "file" ++ " with "
              ++ countOf record.warnings.length "warning"))

/-- Processes the files of a configuration unless it is only to be checked. -/
def processOrCheck [Codecs] (fuel : Nat) (dryRun : Bool) (config : Config) (session : Session) :
    Option Session :=
  let session :=
    if config.files.isEmpty then session.report .warning "No files configured; nothing to do"
    else session
  if dryRun then some (session.report .info "[DRY RUN] Configuration validation successful")
  else process fuel config session

/-- Processes the files that the configuration in a file lists (`run_config`). -/
def run [Codecs] (modules : List Hook.Module) (fuel : Nat) (tree : Tree) (path : Text)
    (dryRun : Bool) (source : GlobalsSource) : Option Session :=
  let session : Session := { tree }
  if '\x00' ∈ path then some (session.fail (.load (.file .nullInPath)))
  else
    let path := Path.resolve tree.cwd path
    if !tree.has path then some (session.refuse ("Configuration file not found: " ++ path))
    else
      let session := session.report .info ("Loading configuration: " ++ path)
      match complete tree source (Config.load modules tree path) with
      | .error error => some (session.fail error)
      | .ok config => processOrCheck fuel dryRun config session

/-! ## Rendering a file -/

/-- The configuration with the options of the command line laid over it. -/
def RenderOptions.apply (options : RenderOptions) (config : Config) : Config :=
  { config with
    delimiters :=
      ⟨options.opener.getD config.delimiters.opener, options.closer.getD config.delimiters.closer⟩
    includesDir := options.includesDir.getD config.includesDir
    docroot := options.docroot.getD config.docroot
    encoding := options.encoding.getD config.encoding
    useMustache := config.useMustache && !options.noMustache
    alwaysUnescaped := config.alwaysUnescaped || options.unescaped }

/-- The configuration for rendering (`build_config`): that in a file, or the default one, with the
options. -/
def RenderOptions.load (options : RenderOptions) (modules : List Hook.Module) (tree : Tree) :
    Except Config.LoadError Config :=
  match options.config with
  | none => .ok (options.apply {})
  | some path => (Config.load modules tree (Path.plain path)).map options.apply

/-- Writes a rendered text, or prints it. -/
def deliver [Codecs] (config : Config) (out : Option Text) (text : Text) (session : Session) :
    Session :=
  match out with
  | none => { session with output := text }
  | some path =>
      match File.write session.tree path text config.encoding with
      | (tree, .error e) => { session with tree }.failExpected (.expansion (.file e))
      | (tree, .ok ()) => { session with tree }.report .info ("Wrote " ++ path)

/-- Renders a file with a configuration. -/
def renderWith [Codecs] (fuel : Nat) (config : Config) (file : Text) (out : Option Text)
    (session : Session) : Option Session :=
  if !session.tree.isFile file then some (session.refuse ("Source file not found: " ++ file))
  else
    match Expansion.prepare config with
    | .error failure => some (session.failExpected (.expansion failure))
    | .ok () =>
        match File.read session.tree file config.encoding with
        | .error e => some (session.failExpected (.expansion (.file e)))
        | .ok text =>
            match Expansion.expandDocument config session.tree fuel text file with
            | none => none
            | some (warnings, result) =>
                let session :=
                  { session with log := session.log ++ warnings.map Warning.toLogEntry }
                match result with
                | .error failure => some (session.failExpected (.expansion failure))
                | .ok text => some (deliver config out text session)

/-- Renders a file (`render_file`). -/
def render [Codecs] (modules : List Hook.Module) (fuel : Nat) (tree : Tree) (file : Text)
    (options : RenderOptions) (source : GlobalsSource) : Option Session :=
  let session : Session := { tree }
  match complete tree source (options.load modules tree) with
  | .error error => some (session.failExpected error)
  | .ok config => renderWith fuel config file options.out session

/-! ## Calls -/

/-- How the program is called. -/
def usage : Text :=
  "usage: splice [-h] \x7brun,render\x7d ...\n\n"
    ++ "  run CONFIG     process the files listed in a configuration file\n"
    ++ "  render FILE    expand a single file\n"

/-- What an invocation leaves. -/
def Invocation.execute [Codecs] (invocation : Invocation) (modules : List Hook.Module) (fuel : Nat)
    (tree : Tree) : Option Session :=
  let session := match invocation.command with
    | .run config dryRun => run modules fuel tree config dryRun invocation.globals
    | .render file options => render modules fuel tree file options invocation.globals
  session.map (·.atLeast invocation.threshold)

/-- What a call with these arguments leaves (`main`); nothing is known of it if the fuel does not
suffice. -/
def execute [Codecs] (modules : List Hook.Module) (fuel : Nat) (tree : Tree) (args : List Text) :
    Option Session :=
  match parse args with
  | .error .help => some { tree, output := usage, exit := .stopped .help }
  | .error .refused => some { tree, exit := .stopped .refused }
  | .ok none => some { tree, output := usage, exit := .returned 1 }
  | .ok (some invocation) => invocation.execute modules fuel tree

end Splice.CommandLine
