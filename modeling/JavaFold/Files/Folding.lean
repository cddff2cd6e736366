import JavaFold.Files.Access
import JavaFold.Folding

/-!
# Folding files

A file is folded into another one, and a directory file by file into the same places below another
directory: all files below it whose names end in `.java`, in the order of their paths.
-/

namespace JavaFold

variable {m : Type → Type} [Monad m] [FileAccess m]

/-- Work with files that can fail. -/
abbrev FileWork (m : Type → Type) := ExceptT FoldError m

namespace FileWork

/-- Folds the file at `input` into the one at `output`. -/
def foldFile (options : FoldOptions) (input output : Path) : FileWork m Report := do
  let some source ← (FileAccess.read? input : m _) | throw (.file input.text)
  match options.foldSource source input.text with
  | .error error => throw error
  | .ok folded =>
    unless ← (FileAccess.write output folded.text : m _) do
      throw (.file output.text)
    return folded.report

/-- Whether a file is a program, by the names on the way to it. -/
def isProgram (names : List String) : Bool :=
  (names.getLast?.bind Path.extension?) == some "java"

/-- The programs below a directory, by the names on the way to them, in order. -/
def programsBelow (dir : Path) : FileWork m (List (List String)) := do
  let some files ← (FileAccess.filesBelow? dir : m _) | throw (.file dir.text)
  return (files.filter isProgram).mergeSort fun a b => !(b < a)

/-- Folds a file below `input` into the same place below `output`. -/
def foldBelow (options : FoldOptions) (input output : Path) (names : List String) :
    FileWork m (Path × Report) := do
  let target := output.append names
  if let some parent := target.parent? then
    unless ← (FileAccess.makeDirectories parent : m _) do
      throw (.file parent.text)
  let report ← foldFile options (input.append names) target
  return (input.append names, report)

/-- Folds all programs below a directory. -/
def foldDirectory (options : FoldOptions) (input output : Path) :
    FileWork m (List (Path × Report)) := do
  (← programsBelow input).mapM (foldBelow options input output)

end FileWork

end JavaFold
