import JavaFold.CommandLine.Arguments
import JavaFold.Files.Folding

/-!
# Running a command line

The configuration is the one that is asked for, or the nearest one: a file in the directory of the
input, or in a directory above it as far as the path of the input goes, the working directory last.
Options on the command line take the place of what the configuration says.
-/

namespace JavaFold

variable {m : Type → Type} [Monad m] [FileAccess m]

namespace Config

/-- Reads the configuration in a file. -/
def load (path : Path) : m (Except ConfigError Config) := do
  match ← FileAccess.read? path with
  | none => return .error (.unreadable path.text)
  | some content => return parse content path.text

/-- Looks for a configuration file in a directory and at most `limit` directories above it. -/
def findWithin : Nat → Path → m (Option Path)
  | limit, dir => do
    let candidate := dir.append [fileName]
    if ← FileAccess.isFile candidate then
      return some candidate
    match limit, dir.parent? with
    | limit + 1, some parent => findWithin limit parent
    | _, _ => return none

/-- The configuration file nearest to a directory. -/
def find (dir : Path) : m (Option Path) := findWithin dir.parts.length dir

/-- The configuration for files in a directory. -/
def discover (dir : Path) : m (Except ConfigError Config) := do
  match ← find dir with
  | some path => load path
  | none => return .ok default

end Config

namespace Arguments

/-- The directory at which the search for a configuration file starts. -/
def startDirectory (input : Path) : m Path := do
  if ← FileAccess.isDirectory input then
    return input
  match input.parent? with
  | some parent => return if parent.isEmpty then .ofText "." else parent
  | none => return .ofText "."

/-- The options that the configuration and the command line ask for. -/
def options (args : Arguments) : FileWork m FoldOptions := do
  let loaded ← (match args.config with
    | some path => Config.load (.ofText path)
    | none => do Config.discover (← startDirectory (.ofText args.input)) : m _)
  match loaded with
  | .error error => throw (.config error)
  | .ok config =>
    let options := FoldOptions.ofConfig config
    return { options with
      passes := if args.passes.isEmpty then options.passes else args.passes
      maxSweeps := args.maxSweeps.getD options.maxSweeps
      emit := args.emit }

/-- Folds the input into the output. -/
def run (args : Arguments) : FileWork m Unit := do
  let options ← args.options
  let input := Path.ofText args.input
  let output := Path.ofText args.output
  if ← (FileAccess.isDirectory input : m _) then
    let _ ← FileWork.foldDirectory options input output
  else
    let _ ← FileWork.foldFile options input output

end Arguments

/-- How a run of a command line ends. -/
inductive Outcome
  | done
  | refused (reason : NoRun)
  | failed (error : FoldError)
deriving Repr, Inhabited

namespace Outcome

/-- The exit code: zero if what was asked for was done, and asking for help is. -/
def exitCode : Outcome → UInt32
  | done => 0
  | refused .help => 0
  | refused .invalid => 1
  | failed _ => 1

end Outcome

/-- Runs a command line. -/
def runCommandLine (args : List String) : m Outcome := do
  match Arguments.parse args with
  | .error reason => return .refused reason
  | .ok args =>
    match ← args.run.run with
    | .ok () => return .done
    | .error error => return .failed error

end JavaFold
