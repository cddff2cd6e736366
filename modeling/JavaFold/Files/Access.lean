import JavaFold.Files.Path

/-!
# Access to files

The questions that are asked of a file system and the changes that are made to it. What they do for
a file system that is kept as a value is in `JavaFold.Files.Store`.
-/

namespace JavaFold

/-- Access to a file system. -/
class FileAccess (m : Type → Type) where
  isDirectory : Path → m Bool
  isFile : Path → m Bool
  /-- The text of a file. -/
  read? : Path → m (Option String)
  /-- Writes a file and says whether that was possible. -/
  write : Path → String → m Bool
  /-- Makes a directory and all directories above it, and says whether they are there. -/
  makeDirectories : Path → m Bool
  /-- All files below a directory, by the names on the way to them. -/
  filesBelow? : Path → m (Option (List (List String)))

end JavaFold
