import JavaFold.Files.Store

/-!
# Searching a directory for programs

What is below a directory can be found with nothing but the entries of one directory after another: the directories
that are met on the way are kept until their turn comes, the last one first, and the programs are put in the order of
their paths at the end. In which order a file system names the entries of a directory is left open.
-/

namespace JavaFold

/-- What a file system answers when it is asked for the entries of the directory at a path. -/
abbrev Listing := Path → Option (List (String × FileEntry))

namespace FileStore

/-- The name of an entry in a directory. -/
def nameIn? (loc : Location) : Location × FileEntry → Option (String × FileEntry)
  | (place, entry) => if place.dropLast = loc then place.getLast?.map (·, entry) else none

/-- The entries of the directory at a location. -/
def entriesAt (s : FileStore) (loc : Location) : List (String × FileEntry) := s.entries.filterMap (nameIn? loc)

/-- The entries of the directory that a path leads to. -/
def listing (s : FileStore) (cwd : Location) : Listing := fun p => do
  match ← s.entry? cwd p with
  | .directory => return s.entriesAt (← s.locate? cwd p)
  | .file _ => none

end FileStore

namespace Path

/-- The names on the way to a path from a directory above it. -/
def relativeTo? (p base : Path) : Option (List String) :=
  if p.absolute = base.absolute ∧ base.parts <+: p.parts then some (p.parts.drop base.parts.length) else none

end Path

namespace Listing

/-- The directories among the entries of a directory. -/
def directories (dir : Path) (entries : List (String × FileEntry)) : List Path :=
  entries.filterMap fun
    | (name, .directory) => some (dir.append [name])
    | (_, .file _) => none

/-- The programs among the entries of a directory. -/
def programs (dir : Path) (entries : List (String × FileEntry)) : List Path :=
  entries.filterMap fun
    | (_, .directory) => none
    | (name, .file _) => if Path.extension? name = some "java" then some (dir.append [name]) else none

/-- Searches the directories whose turn has not come, and gives what has been found at the end. -/
def search? (read : Listing) (pending found : List Path) : Option (List Path) :=
  match pending with
  | [] => some found
  | dir :: pending => do
    let entries ← read dir
    read |>.search? ((directories dir entries).reverse ++ pending) (found ++ programs dir entries)
partial_fixpoint

/-- The programs below a directory, in the order of their paths. -/
def programsBelow? (read : Listing) (dir : Path) : Option (List Path) :=
  (search? read [dir] []).map fun found => found.mergeSort fun a b => !(b.parts < a.parts)

end Listing

end JavaFold
