import JavaFold.Toml.Quoted

/-!
# Reading TOML documents

A document is read line by line: blank lines and comments, headers of tables, and keys with their
values. A value may go over several lines inside an array. What has been read comes with what
follows it.

Documents are kept shallow: a key has at most `mostLevels` parts, and at most as many brackets and
braces are open at once. The functions for values take how many more may be opened, and a bound on
their own steps, for which twice the length of the text is enough.
-/

namespace JavaFold.Toml

namespace Reader

def isBlank (c : Char) : Bool := c = ' ' || c = '\t'

def skipBlanks (cs : List Char) : List Char := cs.dropWhile isBlank

/-- Leaves out a comment, if one follows. -/
def skipComment (cs : List Char) : List Char :=
  match cs with
  | '#' :: rest => rest.dropWhile Quoted.isPlain
  | cs => cs

/-- Goes past a line end, or stays at the end of the text. -/
def lineEnd? : List Char → Option (List Char)
  | [] => some []
  | '\n' :: rest => some rest
  | '\r' :: '\n' :: rest => some rest
  | _ => none

/-- Goes past the end of a line on which nothing but a comment follows. -/
def finishLine? (cs : List Char) : Option (List Char) := lineEnd? (skipComment (skipBlanks cs))

/-- Leaves out blanks, comments and at most `limit` line ends. -/
def skipLines? : Nat → List Char → Option (List Char)
  | 0, _ => none
  | limit + 1, cs =>
    match skipBlanks cs with
    | [] => some []
    | '#' :: rest =>
      match rest.dropWhile Quoted.isPlain with
      | [] => some []
      | cs => do skipLines? limit (← lineEnd? cs)
    | '\n' :: rest => skipLines? limit rest
    | '\r' :: '\n' :: rest => skipLines? limit rest
    | cs => some cs

/-- Whether a character can be part of a key without quotes. -/
def isKeyPart (c : Char) : Bool := c.isAlphanum || c = '-' || c = '_'

/-- Reads one part of a key. -/
def keyPart? (cs : List Char) : Option (String × List Char) :=
  match Quoted.key? cs with
  | some (text, rest) => some (String.ofList text, rest)
  | none =>
    let run := cs.takeWhile isKeyPart
    if run.isEmpty then none else some (String.ofList run, cs.dropWhile isKeyPart)

/-- Reads a key with at most `limit` parts, and the blanks after it. -/
def key? : Nat → List Char → Option (List String × List Char)
  | 0, _ => none
  | limit + 1, cs => do
    let (part, rest) ← keyPart? (skipBlanks cs)
    match skipBlanks rest with
    | '.' :: rest =>
      let (parts, rest) ← key? limit rest
      return (part :: parts, rest)
    | rest => return ([part], rest)

/-- The most parts of a key, and the most brackets and braces of values that are open at once. -/
def mostLevels : Nat := 79

/-- Reads a key and the equals sign after it. -/
def keyOfPair? (cs : List Char) : Option (List String × List Char) := do
  let (key, rest) ← key? mostLevels cs
  match rest with
  | '=' :: rest => return (key, skipBlanks rest)
  | _ => none

mutual

/-- Reads a value inside of which `levels` brackets and braces can be opened. -/
def value? (levels : Nat) : Nat → List Char → Option (Value × List Char)
  | 0, _ => none
  | fuel + 1, cs =>
    match levels, cs with
    | 0, '[' :: _ | 0, '\x7b' :: _ => none
    | levels + 1, '[' :: rest => do
      let (items, rest) ← items? levels fuel (← skipLines? (rest.length + 1) rest)
      return (.array items, rest)
    | levels + 1, '\x7b' :: rest => do
      let (entries, rest) ← inlineTable? levels fuel (skipBlanks rest)
      return (.table .braces entries, rest)
    | _, '"' :: _ | _, '\'' :: _ => do
      let (text, rest) ← Quoted.read? cs
      return (.string (String.ofList text), rest)
    | _, _ => Scalar.read? cs

/-- Reads the items of an array up to its closing bracket. A comma may stand after the last one. -/
def items? (levels : Nat) : Nat → List Char → Option (List Value × List Char)
  | 0, _ => none
  | fuel + 1, cs =>
    match cs with
    | ']' :: rest => some ([], rest)
    | _ => do
      let (item, rest) ← value? levels fuel cs
      match ← skipLines? (rest.length + 1) rest with
      | ',' :: rest =>
        let (items, rest) ← items? levels fuel (← skipLines? (rest.length + 1) rest)
        return (item :: items, rest)
      | ']' :: rest => return ([item], rest)
      | _ => none

/-- Reads an inline table after its opening brace. -/
def inlineTable? (levels : Nat) : Nat → List Char → Option (Entries × List Char)
  | 0, _ => none
  | fuel + 1, cs =>
    match cs with
    | '\x7d' :: rest => some ([], rest)
    | _ => pairs? levels fuel [] cs

/-- Reads the keys and values of an inline table up to its closing brace, after those that are in
`entries`. -/
def pairs? (levels : Nat) : Nat → Entries → List Char → Option (Entries × List Char)
  | 0, _, _ => none
  | fuel + 1, entries, cs => do
    let (key, rest) ← keyOfPair? cs
    let (value, rest) ← value? levels fuel rest
    let entries ← entries.putDotted? true value key
    match skipBlanks rest with
    | ',' :: rest => pairs? levels fuel entries rest
    | '\x7d' :: rest => return (entries, rest)
    | _ => none

end

/-- Reads a header after its opening brackets: the path, and the brackets that close it. -/
def header? (closing : List Char) (cs : List Char) : Option (List String × List Char) := do
  let (path, rest) ← key? mostLevels cs
  if closing.isPrefixOf rest then
    return (path, rest.drop closing.length)
  else
    none

/-- Reads at most `limit` lines, after which `entries` have been read and the table at `path` is
open. -/
def lines? : Nat → List String → Entries → List Char → Option Entries
  | 0, _, _, _ => none
  | limit + 1, path, entries, cs =>
    match skipBlanks cs with
    | [] => some entries
    | '#' :: rest => do lines? limit path entries (← finishLine? ('#' :: rest))
    | '\n' :: rest => lines? limit path entries rest
    | '\r' :: '\n' :: rest => lines? limit path entries rest
    | '[' :: '[' :: rest => do
      let (path, rest) ← header? [']', ']'] rest
      lines? limit path (← entries.putElement? path) (← finishLine? rest)
    | '[' :: rest => do
      let (path, rest) ← header? [']'] rest
      lines? limit path (← entries.putHeader? path) (← finishLine? rest)
    | cs => do
      let (key, rest) ← keyOfPair? cs
      let (value, rest) ← value? mostLevels (2 * rest.length + 2) rest
      lines? limit path (← entries.putAt? path key value) (← finishLine? rest)

/-- Leaves out the mark of the byte order at the start of a text. -/
def skipMark : List Char → List Char
  | '\uFEFF' :: rest => rest
  | cs => cs

end Reader

/-- The keys and values of a document, if it is one. -/
def read? (text : String) : Option Entries :=
  let cs := Reader.skipMark text.toList
  Reader.lines? (cs.length + 1) [] [] cs

end JavaFold.Toml
