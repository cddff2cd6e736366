import JavaFold.Source.Diagnostic
import JavaFold.Source.Utf8
import JavaFold.Token.Piece

/-!
# Reading the tokens of a text

The pieces of a text are read in order, with the place where each one starts: its offset, where its
line starts, and whether something other than a comment stands before it on that line. Only line
ends between tokens start a line; those inside a comment or a string do not. Comments are kept, with
their place, for the printer. If reading finds a problem the text is not accepted, whatever its
tokens are.
-/

namespace JavaFold

open Ascii

/-- A comment with its signs. It is `trailing` if something other than a comment stands before it
on its line, which starts at `lineStart`. -/
structure Comment where
  text : String
  span : Span
  trailing : Bool
  lineStart : Nat
deriving DecidableEq, Repr, Inhabited

/-- What a text reads as: its tokens, of which the last one is the end of the file, its comments,
and its problems. -/
structure Lexed where
  tokens : List (Spanned Token)
  comments : List Comment
  diagnostics : List Diagnostic
deriving Repr

/-- A place in the text. -/
structure Place where
  offset : Nat
  lineStart : Nat
  tokenOnLine : Bool
deriving DecidableEq, Repr

namespace Place

/-- The place where a text starts. -/
def origin : Place := ⟨0, 0, false⟩

/-- The place after a run of blanks. -/
def skipBlanks (p : Place) : List UInt8 → Place
  | [] => p
  | b :: run =>
    if b = newline then skipBlanks ⟨p.offset + 1, p.offset + 1, false⟩ run
    else skipBlanks { p with offset := p.offset + 1 } run

/-- The place after a piece. -/
def after (p : Place) (piece : Piece) : Place :=
  match piece with
  | .blank run => p.skipBlanks run
  | .lineComment _ | .blockComment _ _ => { p with offset := p.offset + piece.bytes.length }
  | _ => { p with offset := p.offset + piece.bytes.length, tokenOnLine := true }

/-- The span of a piece that starts here. -/
def spanOf (p : Place) (piece : Piece) : Span := ⟨p.offset, p.offset + piece.bytes.length⟩

end Place

namespace Lexed

/-- The byte that a backslash in front of `b` writes. -/
def escaped? (b : UInt8) : Option UInt8 :=
  if b = 0x6E then some newline
  else if b = 0x74 then some tab
  else if b = 0x72 then some carriageReturn
  else if b = 0x30 then some 0
  else if b = quote then some quote
  else if b = 0x27 then some 0x27
  else if b = backslash then some backslash
  else none

/-- The bytes that the body of a string writes, and the offsets of the backslashes that write
nothing. Such a backslash is left out together with the byte after it. -/
def unescape (offset : Nat) : List UInt8 → List UInt8 × List Nat
  | [] => ([], [])
  | b :: rest =>
    if b = backslash then
      match rest with
      | [] => ([], [offset])
      | c :: rest =>
        let (bytes, unknown) := unescape (offset + 2) rest
        match escaped? c with
        | some value => (value :: bytes, unknown)
        | none => (bytes, offset :: unknown)
    else
      let (bytes, unknown) := unescape (offset + 1) rest
      (b :: bytes, unknown)

/-- The greatest number that an integer token can hold, which is the greatest one of 64 bits. -/
def maxInteger : Nat := 18446744073709551615

/-- The token of a word. -/
def wordToken (text : String) : Token :=
  match Keyword.ofText? text with
  | some word => .keyword word
  | none => .identifier text

/-- The token of a piece that starts at `offset`, if it has one. -/
def token? (offset : Nat) : Piece → Option Token
  | .word run => some (wordToken (Ascii.text run))
  | .number digits =>
    let value := Ascii.number digits
    some (.integer (if value ≤ maxInteger then value else 0))
  | .quoted body _ => some (.string (Utf8.decodeLossy (unescape (offset + 1) body).1))
  | .sign _ token => some token
  | _ => none

/-- The comment of a piece that starts at `place`, if it is one. -/
def comment? (place : Place) (piece : Piece) : Option Comment :=
  match piece with
  | .lineComment _ | .blockComment _ _ =>
    some ⟨Utf8.decodeLossy piece.bytes, place.spanOf piece, place.tokenOnLine, place.lineStart⟩
  | _ => none

/-- The problems of a piece that starts at `place`. -/
def problems (place : Place) (piece : Piece) : List Diagnostic :=
  let span := place.spanOf piece
  match piece with
  | .blockComment _ false => [⟨.unterminatedComment, span⟩]
  | .number digits =>
    if Ascii.number digits ≤ maxInteger then []
    else [⟨.integerTooLarge (Ascii.text digits), span⟩]
  | .quoted body closed =>
    (unescape (place.offset + 1) body).2.map (fun o => ⟨.unknownEscape, ⟨o, o + 2⟩⟩) ++
      if closed then [] else [⟨.unterminatedString, span⟩]
  | .stray byte => [⟨.unexpectedByte byte, span⟩]
  | _ => []

/-- What the pieces of a text read as, the first of which starts at `place`. -/
def ofPieces (place : Place) : List Piece → Lexed
  | [] => ⟨[⟨.endOfFile, ⟨place.offset, place.offset⟩⟩], [], []⟩
  | piece :: pieces =>
    let rest := ofPieces (place.after piece) pieces
    { tokens :=
        ((token? place.offset piece).map fun t => ⟨t, place.spanOf piece⟩).toList ++ rest.tokens
      comments := (comment? place piece).toList ++ rest.comments
      diagnostics := problems place piece ++ rest.diagnostics }

/-- What a source text reads as. -/
def ofSource (source : String) : Lexed := ofPieces .origin (Piece.cut (Utf8.encode source))

end Lexed

end JavaFold
