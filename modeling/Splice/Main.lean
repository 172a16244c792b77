import Splice.CommandLine.Session

/-!
# The program

The files that the program may look at are named on standard input, one a line. They are read into a
file tree, the call is made on that, and the files that have changed are written back. Reports go to
standard error.
-/

namespace Splice.Program

open CommandLine

/-- The lines of a stream up to its end. -/
partial def lines (stream : IO.FS.Stream) : IO (List Text) := do
  let line ← stream.getLine
  if line.isEmpty then return []
  return Text.dropFinalBreak line.toList :: (← lines stream)

/-- The tree with a file read from its path. -/
def readFile (tree : Tree) (path : Text) : IO Tree := do
  let bytes ← IO.FS.readBinFile (String.ofList path)
  return tree.withFile (Path.normalNames (Path.absolute tree.cwd path)) bytes.toList

/-- Writes a file at its place, with the directories above it. -/
def writeFile (place : Place) (bytes : Bytes) : IO Unit := do
  IO.FS.createDirAll (String.ofList ('/' :: Path.ofNames place.dropLast))
  IO.FS.writeBinFile (String.ofList ('/' :: Path.ofNames place)) ⟨bytes.toArray⟩

/-- The name of a severity. -/
def severityName : Severity → String
  | .info => "INFO"
  | .warning => "WARNING"
  | .error => "ERROR"

/-- The exit code of a call, with what is printed about an error that no command deals with. -/
def conclude (stderr : IO.FS.Stream) : Exit → IO UInt32
  | .returned code => return code.toUInt32
  | .stopped .help => return 0
  | .stopped .refused => do
      stderr.putStrLn (String.ofList usage)
      return 2
  | .escaped error => do
      for message in error.messages do stderr.putStrLn (String.ofList message)
      return 1

/-- The number of steps that a call may take. -/
def fuel : Nat := 1000000000

end Splice.Program

open Splice Splice.Program

/-- Makes one call. -/
def main (args : List String) : IO UInt32 := do
  let stdin ← IO.getStdin
  let stdout ← IO.getStdout
  let stderr ← IO.getStderr
  let cwd := ((← IO.getEnv "PWD").getD "/").toList
  let start := Tree.withDirectory ⟨cwd, []⟩ (Path.normalNames cwd)
  let tree ← (← lines stdin).foldlM readFile start
  match CommandLine.execute [] fuel tree (args.map String.toList) with
  | none =>
      stderr.putStrLn "The call takes too many steps."
      return 1
  | some session =>
      for (place, bytes) in Tree.changes tree session.tree do writeFile place bytes
      for entry in session.log do
        stderr.putStrLn (severityName entry.severity ++ " " ++ String.ofList entry.message)
      stdout.putStr (String.ofList session.output)
      conclude stderr session.exit
