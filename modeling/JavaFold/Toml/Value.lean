/-!
# TOML values

The values of a TOML document, with its tables in the order in which their keys are written. A table
remembers how it came to be, because that decides what may still be added to it: a header or an
inline table closes it, while one that was only named on the way to another table can get a header
later, and one made by a dotted key can get more dotted keys. Keys and headers are put into a table
by `putDotted?` and `putHeader?`, which refuse what is already there.
-/

namespace JavaFold.Toml

/-- How a table came to be. -/
inductive Origin
  | header
  | implied
  | dotted
  | braces
deriving DecidableEq, Repr, Inhabited

/-- A value of a document. Numbers with a fraction and dates are kept as they are written. -/
inductive Value
  | string (text : String)
  | integer (value : Int)
  | float (text : String)
  | boolean (value : Bool)
  | dateTime (text : String)
  | array (items : List Value)
  | table (origin : Origin) (entries : List (String × Value))
  /-- The tables of one repeated header, the last of which can still get keys. -/
  | tables (elements : List (List (String × Value)))
deriving Repr, Inhabited

/-- Keys with their values. -/
abbrev Entries := List (String × Value)

namespace Entries

/-- The same keys, with another value for one of them. -/
def set (es : Entries) (key : String) (value : Value) : Entries :=
  es.map fun e => if e.1 = key then (key, value) else e

/-- One more key at the end. -/
def add (es : Entries) (key : String) (value : Value) : Entries := es ++ [(key, value)]

/-- The last of the tables of a repeated header, changed by `f`. -/
def updateLast? (f : Entries → Option Entries) (elements : List Entries) :
    Option (List Entries) := do
  let last ← elements.getLast?
  return elements.dropLast ++ [← f last]

/-- Puts a value under a key with several parts. `isOpen` says whether the table that the last part
goes into can get keys this way: the table where the key starts can, and so can those that dotted
keys have made. -/
def putDotted? (isOpen : Bool) (value : Value) : List String → Entries → Option Entries
  | [], _ => none
  | [key], es =>
    if isOpen && (es.lookup key).isNone then some (es.add key value) else none
  | key :: path, es =>
    match es.lookup key with
    | none => do return es.add key (.table .dotted (← putDotted? true value path []))
    | some (.table .dotted inner) => do
      return es.set key (.table .dotted (← putDotted? true value path inner))
    | some (.table .implied inner) => do
      return es.set key (.table .implied (← putDotted? false value path inner))
    | some (.tables elements) => do
      return es.set key (.tables (← updateLast? (putDotted? false value path) elements))
    | some _ => none

/-- Changes the table that a path of keys leads to; tables on the way are made as they are
needed. -/
def descend? (f : String → Entries → Option Entries) : List String → Entries → Option Entries
  | [], _ => none
  | [key], es => f key es
  | key :: path, es =>
    match es.lookup key with
    | none => do return es.add key (.table .implied (← descend? f path []))
    | some (.table .braces _) => none
    | some (.table origin inner) => do
      return es.set key (.table origin (← descend? f path inner))
    | some (.tables elements) => do
      return es.set key (.tables (← updateLast? (descend? f path) elements))
    | some _ => none

/-- Opens the table of a header. -/
def putHeader? : List String → Entries → Option Entries :=
  descend? fun key es =>
    match es.lookup key with
    | none => some (es.add key (.table .header []))
    | some (.table .implied inner) => some (es.set key (.table .header inner))
    | some _ => none

/-- Opens one more table of a repeated header. -/
def putElement? : List String → Entries → Option Entries :=
  descend? fun key es =>
    match es.lookup key with
    | none => some (es.add key (.tables [[]]))
    | some (.tables elements) => some (es.set key (.tables (elements ++ [[]])))
    | some _ => none

/-- Puts a value under a key into the table that was opened at `path`. -/
def putAt? (path key : List String) (value : Value) (es : Entries) : Option Entries :=
  match path with
  | [] => putDotted? true value key es
  | path =>
    descend?
      (fun last es => match es.lookup last with
        | some (.table origin inner) => do
          return es.set last (.table origin (← putDotted? true value key inner))
        | some (.tables elements) => do
          return es.set last (.tables (← updateLast? (putDotted? true value key) elements))
        | _ => none)
      path es

end Entries

end JavaFold.Toml
