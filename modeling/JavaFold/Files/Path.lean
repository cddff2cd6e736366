/-!
# Paths

A path is kept as it is written: its pieces are what stands between its slashes. The pieces that are
its parts lead somewhere. Between slashes nothing and a dot lead nowhere, while a dot at the start
of a relative path is a part, and so are two dots, because the directory above a directory is not
known from the path alone. A slash at the end asks for a directory.
-/

namespace JavaFold

/-- A path by its pieces, after the slash at its start if it is absolute. -/
structure Path where
  absolute : Bool
  pieces : List String
deriving DecidableEq, Repr, Inhabited

namespace Path

/-- The pieces of a text, none for the empty text. -/
def piecesOf (text : String) : List String := if text.isEmpty then [] else text.splitOn "/"

/-- The path that a text writes. -/
def ofText (text : String) : Path :=
  match text.toList with
  | '/' :: rest => ⟨true, piecesOf (String.ofList rest)⟩
  | _ => ⟨false, piecesOf text⟩

/-- The written form of a path. -/
def text (p : Path) : String :=
  (if p.absolute then "/" else "") ++ "/".intercalate p.pieces

/-- Whether a piece leads nowhere. -/
def isBlank (piece : String) : Bool := piece = "" || piece = "."

/-- The names on the way along a path, with the dot at its start. -/
def parts (p : Path) : List String :=
  match p.absolute, p.pieces with
  | false, "." :: pieces => "." :: pieces.filter (!isBlank ·)
  | _, pieces => pieces.filter (!isBlank ·)

/-- Whether the path has a slash, perhaps with a dot, at its end. -/
def asDirectory (p : Path) : Bool :=
  (p.absolute || p.pieces.length ≠ 1) && p.pieces.getLast?.any isBlank

/-- Whether nothing is written. -/
def isEmpty (p : Path) : Bool := !p.absolute && p.pieces.isEmpty

/-- The path of a file below a directory. A slash at the end of the directory is used for it. -/
def append (p : Path) (names : List String) : Path :=
  if names.isEmpty then p
  else if p.pieces.getLast? = some "" then { p with pieces := p.pieces.dropLast ++ names }
  else { p with pieces := p.pieces ++ names }

/-- Pieces without the last one that is not blank, and without blank ones at the end. -/
def dropLastNamed (pieces : List String) : List String :=
  (((pieces.reverse.dropWhile isBlank).drop 1).dropWhile isBlank).reverse

/-- The path without its last part, if it has one. The directory is found from the text alone. -/
def parent? (p : Path) : Option Path :=
  if p.parts.isEmpty then none
  else match p.absolute, p.pieces with
    | false, "." :: pieces =>
      some ⟨false, if pieces.all isBlank then [] else "." :: dropLastNamed pieces⟩
    | absolute, pieces => some ⟨absolute, dropLastNamed pieces⟩

/-- What follows the last dot of a file name, if something stands before that dot. -/
def extension? (name : String) : Option String :=
  let cs := name.toList.reverse
  let ending := cs.takeWhile (· != '.')
  match cs.dropWhile (· != '.') with
  | _ :: _ :: _ => some (String.ofList ending.reverse)
  | _ => none

end Path

end JavaFold
