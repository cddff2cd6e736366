import JavaFold.Files.Access

/-!
# A file system as a value

Files and directories by the names on the way to them from the top. Going along a path, each part
but the last one has to lead to a directory. There are no links, so two dots lead to the directory
whose entry was just used. A name has at most 255 bytes, none of them zero.
-/

namespace JavaFold

/-- What a name stands for. -/
inductive FileEntry
  | file (text : String)
  | directory
deriving DecidableEq, Repr, Inhabited

/-- The names on the way from the top. -/
abbrev Location := List String

/-- Files and directories. The top is a directory and is not listed. -/
structure FileStore where
  entries : List (Location × FileEntry)
deriving DecidableEq, Repr, Inhabited

namespace FileStore

/-- What is at a location. -/
def at? (s : FileStore) (loc : Location) : Option FileEntry :=
  if loc.isEmpty then some .directory else s.entries.lookup loc

/-- Whether a part of a path can be a name in a directory. -/
def isName (part : String) : Bool := part.utf8ByteSize ≤ 255 && !part.toList.contains '\x00'

/-- Goes from a location along the parts of a path. -/
def follow? (s : FileStore) (loc : Location) : List String → Option Location
  | [] => some loc
  | part :: parts =>
    if s.at? loc = some .directory ∧ isName part then
      let next :=
        if part = "." then loc
        else if part = ".." then loc.dropLast
        else loc ++ [part]
      s.follow? next parts
    else
      none

/-- The location a path leads to from the directory `cwd`; there need not be anything there. -/
def locate? (s : FileStore) (cwd : Location) (p : Path) : Option Location :=
  if p.isEmpty then none else s.follow? (if p.absolute then [] else cwd) p.parts

/-- What a path leads to. -/
def entry? (s : FileStore) (cwd : Location) (p : Path) : Option FileEntry := do
  let entry ← s.at? (← s.locate? cwd p)
  if p.asDirectory ∧ entry ≠ .directory then none else some entry

/-- The store with something else at a location. -/
def put (s : FileStore) (loc : Location) (entry : FileEntry) : FileStore :=
  if (s.entries.lookup loc).isSome then
    ⟨s.entries.map fun e => if e.1 = loc then (loc, entry) else e⟩
  else
    ⟨s.entries ++ [(loc, entry)]⟩

/-- Writes a file where a path leads to, unless a directory is there or has to be. -/
def write? (s : FileStore) (cwd : Location) (p : Path) (text : String) : Option FileStore := do
  let loc ← s.locate? cwd p
  if p.asDirectory ∨ s.at? loc = some .directory then none else some (s.put loc (.file text))

/-- Makes the directories along the parts of a path. -/
def makeAlong? (s : FileStore) (loc : Location) : List String → Option FileStore
  | [] => some s
  | part :: parts =>
    if part = "." then s.makeAlong? loc parts
    else if part = ".." then s.makeAlong? loc.dropLast parts
    else if !isName part then none
    else
      let next := loc ++ [part]
      match s.at? next with
      | some .directory => s.makeAlong? next parts
      | some (.file _) => none
      | none => (s.put next .directory).makeAlong? next parts

/-- Makes the directory a path leads to and all directories above it. -/
def makeDirectories? (s : FileStore) (cwd : Location) (p : Path) : Option FileStore :=
  s.makeAlong? (if p.absolute then [] else cwd) p.parts

/-- The names on the way to a file from a location above it. -/
def below? (loc : Location) : Location × FileEntry → Option Location
  | (place, .file _) => if loc.isPrefixOf place then some (place.drop loc.length) else none
  | (_, .directory) => none

/-- All files below the directory that a path leads to. -/
def filesBelow? (s : FileStore) (cwd : Location) (p : Path) : Option (List Location) := do
  match ← s.entry? cwd p with
  | .directory => return s.entries.filterMap (below? (← s.locate? cwd p))
  | .file _ => none

/-- Adds an entry and the directories above it. -/
def add (s : FileStore) (loc : Location) (entry : FileEntry) : FileStore :=
  (((s.makeAlong? [] loc.dropLast).getD s).put loc entry)

end FileStore

/-- A file system and the directory at which relative paths start. -/
structure Host where
  store : FileStore
  cwd : Location
deriving Repr

/-- Work on a file system that is kept as a value. -/
abbrev OnHost := StateM Host

namespace OnHost

/-- Makes a change if it is possible. -/
def change (f : FileStore → Location → Option FileStore) : OnHost Bool := fun host =>
  match f host.store host.cwd with
  | some store => (true, { host with store })
  | none => (false, host)

instance : FileAccess OnHost where
  isDirectory p := return (← get).store.entry? (← get).cwd p == some .directory
  isFile p := return match (← get).store.entry? (← get).cwd p with
    | some (.file _) => true
    | _ => false
  read? p := return match (← get).store.entry? (← get).cwd p with
    | some (.file text) => some text
    | _ => none
  write p text := change fun s cwd => s.write? cwd p text
  makeDirectories p := change fun s cwd => s.makeDirectories? cwd p
  filesBelow? p := return (← get).store.filesBelow? (← get).cwd p

end OnHost

end JavaFold
