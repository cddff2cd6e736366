import JavaFold.Config
import JavaFold.Program.Unit.Parser
import JavaFold.Program.Unit.Printer
import JavaFold.Tree.Program
import JavaFold.Tree.Text

/-!
# Folding a program

A source text is read, put into a tree, folded, and written again: as source text with its comments,
or as the text of the tree.
-/

namespace JavaFold

/-- What is written after folding. -/
inductive Emit
  | source
  | tree
deriving DecidableEq, Repr, Inhabited

/-- Which passes run, in which order, for how many sweeps, and what is written. -/
structure FoldOptions where
  passes : List PassKind
  maxSweeps : Nat
  emit : Emit
deriving DecidableEq, Repr, Inhabited

/-- Why folding fails. -/
inductive FoldError
  | syntaxErrors (path : String) (diagnostics : List Diagnostic)
  | tree (error : TreeError)
  | file (path : String)
  | config (error : ConfigError)
deriving Repr, Inhabited

namespace FoldError

def message : FoldError → String
  | syntaxErrors path diagnostics =>
    path ++ ": " ++ toString diagnostics.length ++ " parse error(s)"
  | tree error => error.message
  | file path => path
  | config error => error.message

end FoldError

/-- A folded program. -/
structure Folded where
  text : String
  report : Report
deriving Repr, Inhabited

namespace FoldOptions

/-- The options that a configuration asks for. -/
def ofConfig (config : Config) : FoldOptions := ⟨config.passes, config.maxSweeps, .source⟩

/-- The options where nothing is asked for. -/
def default : FoldOptions := ofConfig .default

/-- Folds a tree. -/
def foldTree (options : FoldOptions) : Edit Report :=
  (FixedPoint.run (options.passes.map PassKind.pass) options.maxSweeps).alone

/-- Writes a folded tree, given the comments of its source. -/
def write (options : FoldOptions) (t : Tree) (comments : List Comment) :
    Except TreeError String :=
  match options.emit with
  | .source => do return (← t.unit?).text comments
  | .tree => return t.dump t.root ++ "\n"

/-- Folds the source text of a file. -/
def foldSource (options : FoldOptions) (source path : String) : Except FoldError Folded :=
  match CompilationUnit.ofSource? source with
  | .error diagnostics => .error (.syntaxErrors path diagnostics)
  | .ok (unit, comments) =>
    match options.foldTree (.ofUnit unit) with
    | .error error _ => .error (.tree error)
    | .ok report t => match options.write t comments with
      | .error error => .error (.tree error)
      | .ok text => .ok ⟨text, report⟩

end FoldOptions

/-- A source text written again with its comments. -/
def formatSource (source : String) : Except (List Diagnostic) String :=
  (CompilationUnit.ofSource? source).map fun (unit, comments) => unit.text comments

end JavaFold
