import JavaFold.CommandLine.Run

/-!
# The program

The command line on the files of the machine. A path leads to a directory if it can be opened with
`/.` after it. Which files are below an input directory is read from standard input: a path on each
line, as it goes on from that directory.
-/

namespace JavaFold

/-- The result of an action, or nothing if it fails. -/
def attempt {α : Type} (action : IO α) : IO (Option α) := do
  try
    return some (← action)
  catch _ =>
    return none

/-- Whether a path can be opened for reading. -/
def opens (path : String) : IO Bool :=
  return (← attempt (IO.FS.Handle.mk path .read)).isSome

/-- The lines up to the end of the input. -/
partial def linesOf (input : IO.FS.Stream) : IO (List String) := do
  let line ← input.getLine
  if line.isEmpty then
    return []
  return String.ofList (line.toList.filter (· != '\n')) :: (← linesOf input)

/-- Whether a path leads to a directory. Nothing is at the empty path. -/
def leadsToDirectory (path : Path) : IO Bool :=
  if path.isEmpty then return false else opens (path.text ++ "/.")

/-- The files of the machine. -/
instance : FileAccess IO where
  isDirectory := leadsToDirectory
  isFile path := return (← opens path.text) && !(← leadsToDirectory path)
  read? path := attempt (IO.FS.readFile path.text)
  write path text := return (← attempt (IO.FS.writeFile path.text text)).isSome
  makeDirectories path :=
    if path.isEmpty then return true
    else return (← attempt (IO.FS.createDirAll path.text)).isSome
  filesBelow? _ := attempt do
    return (← linesOf (← IO.getStdin)).map fun line => (Path.ofText line).parts

/-- How the program is called. -/
def usage : String :=
  "usage: INPUT OUTPUT [--pass NAME]... [--max-sweeps N] [--config PATH] [--emit source|tree] [-v]"

/-- Says how a run ended. -/
def Outcome.report : Outcome → IO Unit
  | done => return ()
  | refused .help => IO.println usage
  | refused .invalid => IO.eprintln "invalid arguments, see --help"
  | failed error => do
    if let .syntaxErrors _ diagnostics := error then
      for d in diagnostics do
        IO.eprintln d.problem.message
    IO.eprintln error.message

end JavaFold

open JavaFold in
/-- Runs the command line and says what went wrong. -/
def main (args : List String) : IO UInt32 := do
  let outcome ← runCommandLine args
  outcome.report
  return outcome.exitCode
