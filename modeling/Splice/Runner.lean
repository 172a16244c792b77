import Splice.Expansion
import Splice.Tree.Change

/-!
# Running over files

A runner expands the files that a configuration lists and writes them to their destinations.

* `Log` — what is reported on the way, with its severity;
* `Record` — the outcome of a run: the files processed, and the warnings;
* `Runner` — the file tree, the record, and the log; and
* `Runner.run`, `Runner.processFile` — a whole run, and a single file.

A failure ends a run at the document at which it occurs. What was written before stays.
-/

namespace Splice

/-- How severe a report is. -/
inductive Severity where
  /-- Progress. -/
  | info
  /-- Something that does not end the run. -/
  | warning
  /-- Something that ends the run, or is likely to be a mistake. -/
  | error
deriving DecidableEq, Repr

/-- The rank of a severity among the others. -/
def Severity.rank : Severity → Nat
  | .info => 0
  | .warning => 1
  | .error => 2

/-- One report. -/
structure LogEntry where
  /-- Its severity. -/
  severity : Severity
  /-- Its text. -/
  message : Text
deriving DecidableEq, Repr

/-- Reports, in order. -/
abbrev Log := List LogEntry

/-- The severity of a warning. -/
def Warning.severity : Warning → Severity
  | .absoluteInclude _ => .error
  | _ => .warning

/-- A warning as a report. -/
def Warning.toLogEntry (warning : Warning) : LogEntry := ⟨warning.severity, warning.message⟩

/-- The outcome of a run (`RunResult`). -/
structure Record where
  /-- The files processed: their sources and destinations. -/
  processed : List (Text × Text) := []
  /-- The warnings. Those about includes come last, once the run has succeeded. -/
  warnings : List Warning := []
deriving DecidableEq, Repr

/-- Did the run finish without warnings (`ok`)? -/
def Record.ok (record : Record) : Bool := record.warnings.isEmpty

/-- A runner between two files (`IncludeReplaceRunner`). -/
structure Runner where
  /-- The file tree. -/
  tree : Tree
  /-- The outcome so far. -/
  record : Record := {}
  /-- The warnings about includes since the runner was made, also those of earlier runs. -/
  includeWarnings : List Warning := []
  /-- The reports. -/
  log : Log := []

namespace Runner

/-- The outcome of a step: none if the fuel did not suffice; otherwise the runner as it is left, and
a result or a failure. -/
abbrev Step (α : Type) := Option (Runner × Except Failure α)

/-- Adds a report. -/
def report (runner : Runner) (severity : Severity) (message : Text) : Runner :=
  { runner with log := runner.log ++ [⟨severity, message⟩] }

/-- Adds a warning about sources (`_warn`). -/
def warn (runner : Runner) (warning : Warning) : Runner :=
  { runner with
    record := { runner.record with warnings := runner.record.warnings ++ [warning] }
    log := runner.log ++ [warning.toLogEntry] }

/-- Keeps the warnings of an expansion. -/
def noteIncludes (runner : Runner) (warnings : List Warning) : Runner :=
  { runner with
    includeWarnings := runner.includeWarnings ++ warnings
    log := runner.log ++ warnings.map Warning.toLogEntry }

/-- Does the destination name a directory (`is_directory_dest`)? -/
def isDirectoryDest (dest : Text) : Bool := dest.getLast? = some '/'

/-- Where a source is written (`destination_for`): to the destination itself or, if that is a
directory, below it under its own path, which is never taken as absolute. -/
def destinationFor (source dest : Text) : Text :=
  if isDirectoryDest dest then
    Path.join dest (source.dropWhile fun c => decide (c = '/' ∨ c = '\\'))
  else dest

/-- Writes the expanded text of a source and records it (the end of `process_file`). -/
def writeOutput [Codecs] (config : Config) (runner : Runner) (source dest text : Text) :
    Runner × Except Failure Text :=
  match File.write runner.tree dest text config.encoding with
  | (tree, .error e) => ({ runner with tree }, .error (.file e))
  | (tree, .ok ()) =>
      let processed := runner.record.processed ++ [(source, dest)]
      let runner := { runner with tree, record := { runner.record with processed } }
      (runner.report .info ("Processed " ++ source), .ok text)

/-- Expands one source and writes it (`process_file`). The result is the expanded text. -/
def processFile [Codecs] (config : Config) (fuel : Nat) (runner : Runner) (source dest : Text) :
    Step Text :=
  let runner := runner.report .info ("Processing " ++ source)
  match File.read runner.tree source config.encoding with
  | .error e => some (runner, .error (.file e))
  | .ok text =>
      match Expansion.expandDocument config runner.tree fuel text source with
      | none => none
      | some (warnings, .error failure) => some (runner.noteIncludes warnings, .error failure)
      | some (warnings, .ok text) =>
          some (writeOutput config (runner.noteIncludes warnings) source dest text)

/-- Warns of each source pattern that finds nothing (the first loop of `_process_mapping`), as far
as no pattern is refused. Patterns that take files away are not looked at. -/
def checkPatterns (cwd : Option Text) (runner : Runner) : List Text → Runner
  | [] => runner
  | pattern :: patterns =>
      if (Glob.excluded? pattern).isSome then checkPatterns cwd runner patterns
      else if Glob.refuses cwd pattern then runner
      else
        let idle := (Glob.expand runner.tree cwd pattern).isEmpty
        checkPatterns cwd (if idle then runner.warn (.sourceNotFound pattern) else runner) patterns

/-- The path of a source that was found in the directory of a mapping. -/
def sourcePath (cwd : Option Text) (source : Text) : Text :=
  match cwd with
  | none => source
  | some directory => if directory.isEmpty then source else Path.join directory source

/-- Processes the sources of a mapping that are files and warns of the others (the second loop of
`_process_mapping`). -/
def processSources [Codecs] (config : Config) (fuel : Nat) (mapping : FileMapping) :
    (sources : List Text) → Runner → Step Unit
  | [], runner => some (runner, .ok ())
  | source :: sources, runner =>
      let path := sourcePath mapping.cwd source
      if runner.tree.isFile path then
        match processFile config fuel runner path (destinationFor source mapping.dest) with
        | none => none
        | some (runner, .error failure) => some (runner, .error failure)
        | some (runner, .ok _) => processSources config fuel mapping sources runner
      else processSources config fuel mapping sources (runner.warn (.notAFile path))

/-- Processes a mapping (`_process_mapping`). Its sources are found before the first of them is
processed. -/
def processMapping [Codecs] (config : Config) (fuel : Nat) (mapping : FileMapping)
    (runner : Runner) :
    Step Unit :=
  let runner := checkPatterns mapping.cwd runner mapping.sources
  if Glob.refusesAny mapping.cwd mapping.sources then some (runner, .error (.file .nullInPath))
  else
    let sources := Glob.expandAll runner.tree mapping.cwd mapping.sources
    processSources config fuel mapping sources runner

/-- Processes mappings one after the other (the loop of `run`). -/
def processMappings [Codecs] (config : Config) (fuel : Nat) : List FileMapping → Runner → Step Unit
  | [], runner => some (runner, .ok ())
  | mapping :: mappings, runner =>
      match processMapping config fuel mapping runner with
      | none => none
      | some (runner, .error failure) => some (runner, .error failure)
      | some (runner, .ok ()) => processMappings config fuel mappings runner

/-- The runner before a run: with an empty record. -/
def fresh (runner : Runner) : Runner := { runner with record := {} }

/-- The runner after a run that has succeeded: with the warnings about includes in its record, but
for the first ones, which had been there before. -/
def finish (before : Nat) (runner : Runner) : Runner :=
  let warnings := runner.record.warnings ++ runner.includeWarnings.drop before
  { runner with record := { runner.record with warnings } }

/-- Processes all files of a configuration (`run`). The options are shown first, which fails before
the record of an earlier run is given up. -/
def run [Codecs] (config : Config) (fuel : Nat) (runner : Runner) : Step Record :=
  if !config.isShowable then some (runner, .error .unshowable)
  else
    match processMappings config fuel config.files runner.fresh with
    | none => none
    | some (left, .error failure) => some (left, .error failure)
    | some (left, .ok ()) =>
        let done := left.finish runner.includeWarnings.length
        some (done, .ok done.record)

end Runner

end Splice
