import JavaFold.Token.Basic

/-!
# Cutting a text into pieces

A source text is cut into pieces, each of which is read as one thing: a run of blanks, a comment, a
word, a number, a quoted string, a sign, or a byte that can start nothing. Cutting decides only
where pieces end; `bytes_next` says that a piece and what follows it are the text it was cut from,
so that the pieces of a text, put together again, are the text (`flatMap_bytes_cut`).
-/

namespace JavaFold

namespace Ascii

def tab : UInt8 := 0x09
def newline : UInt8 := 0x0A
def formFeed : UInt8 := 0x0C
def carriageReturn : UInt8 := 0x0D
def space : UInt8 := 0x20
def quote : UInt8 := 0x22
def dollar : UInt8 := 0x24
def star : UInt8 := 0x2A
def slash : UInt8 := 0x2F
def backslash : UInt8 := 0x5C
def underscore : UInt8 := 0x5F

/-- Space, tab, line feed, form feed and carriage return are blank; vertical tab is not. -/
def isBlank (b : UInt8) : Bool :=
  b == space || b == tab || b == newline || b == formFeed || b == carriageReturn

def isDigit (b : UInt8) : Bool := 0x30 ≤ b && b ≤ 0x39

def isLetter (b : UInt8) : Bool := (0x41 ≤ b && b ≤ 0x5A) || (0x61 ≤ b && b ≤ 0x7A)

/-- Whether a word can start with the byte. -/
def startsWord (b : UInt8) : Bool := isLetter b || b == underscore || b == dollar

/-- Whether a word can go on with the byte. -/
def continuesWord (b : UInt8) : Bool := startsWord b || isDigit b

/-- The text of bytes that are all below 128. -/
def text (bytes : List UInt8) : String :=
  String.ofList (bytes.map fun b => Char.ofNat b.toNat)

/-- The number that decimal digits write. -/
def number (digits : List UInt8) : Nat :=
  digits.foldl (fun n d => n * 10 + (d.toNat - 0x30)) 0

end Ascii

open Ascii

/-- A stretch of source text that is read as one thing. A comment or string that ends before its
closing sign is not `closed`. -/
inductive Piece
  | blank (run : List UInt8)
  | lineComment (body : List UInt8)
  | blockComment (body : List UInt8) (closed : Bool)
  | word (run : List UInt8)
  | number (digits : List UInt8)
  | quoted (body : List UInt8) (closed : Bool)
  | sign (spelling : List UInt8) (token : Token)
  | stray (byte : UInt8)
deriving DecidableEq, Repr

namespace Piece

/-- The stretch of text itself. -/
def bytes : Piece → List UInt8
  | blank run => run
  | lineComment body => slash :: slash :: body
  | blockComment body closed => slash :: star :: (body ++ if closed then [star, slash] else [])
  | word run => run
  | number digits => digits
  | quoted body closed => quote :: (body ++ if closed then [quote] else [])
  | sign spelling _ => spelling
  | stray byte => [byte]

/-- What stands before a closing sign, whether the sign is there, and what follows. -/
structure Enclosed where
  body : List UInt8
  closed : Bool
  rest : List UInt8

namespace Enclosed

/-- One more byte in front of the body. -/
def push (b : UInt8) (e : Enclosed) : Enclosed := { e with body := b :: e.body }

end Enclosed

/-- The body of a block comment goes up to the first `*/`. -/
def commentBody : List UInt8 → Enclosed
  | [] => ⟨[], false, []⟩
  | [b] => ⟨[b], false, []⟩
  | b :: c :: rest =>
    if b = star ∧ c = slash then ⟨[], true, rest⟩
    else (commentBody (c :: rest)).push b

/-- The body of a string goes up to the next quote that no backslash precedes. It stops in front of
a line end, unless a backslash precedes that. -/
def stringBody : List UInt8 → Enclosed
  | [] => ⟨[], false, []⟩
  | b :: rest =>
    if b = quote then ⟨[], true, rest⟩
    else if b = newline then ⟨[], false, b :: rest⟩
    else if b = backslash then
      match rest with
      | [] => ⟨[b], false, []⟩
      | c :: rest => ((stringBody rest).push c).push b
    else (stringBody rest).push b

/-- All signs, the longest first, so that the first one that fits is the longest one. -/
def signs : List (String × Token) :=
  [(">>>=", .compound .ushr),
   (">>>", .operator .ushr), ("<<=", .compound .shl), (">>=", .compound .shr),
   ("<<", .operator .shl), (">>", .operator .shr),
   ("<=", .operator .le), (">=", .operator .ge), ("==", .operator .eq), ("!=", .operator .ne),
   ("&&", .operator .and), ("||", .operator .or), ("++", .step .inc), ("--", .step .dec),
   ("+=", .compound .add), ("-=", .compound .sub), ("*=", .compound .mul), ("/=", .compound .div),
   ("%=", .compound .rem), ("&=", .compound .bitAnd), ("|=", .compound .bitOr),
   ("^=", .compound .bitXor),
   ("(", .lparen), (")", .rparen), ("\x7b", .lbrace), ("\x7d", .rbrace),
   (",", .comma), (";", .semicolon), (".", .dot), ("=", .assign), ("!", .bang), ("~", .tilde),
   ("<", .operator .lt), (">", .operator .gt), ("+", .operator .add), ("-", .operator .sub),
   ("*", .operator .mul), ("/", .operator .div), ("%", .operator .rem),
   ("&", .operator .bitAnd), ("|", .operator .bitOr), ("^", .operator .bitXor)]

/-- The bytes of a text of ASCII characters. -/
def spell (text : String) : List UInt8 := text.toList.map fun c => c.toNat.toUInt8

/-- The signs with the bytes of their spelling. -/
def signTable : List (List UInt8 × Token) := signs.map fun s => (spell s.1, s.2)

/-- The longest sign at the start of `bytes`. -/
def signAt? (bytes : List UInt8) : Option (List UInt8 × Token) :=
  signTable.find? fun s => s.1.isPrefixOf bytes

/-- The piece at the start of the text `b :: rest`, and the text after it. -/
def next (b : UInt8) (rest : List UInt8) : Piece × List UInt8 :=
  if isBlank b then (blank (b :: rest.takeWhile isBlank), rest.dropWhile isBlank)
  else if b = slash ∧ rest.head? = some slash then
    let body := rest.drop 1
    (lineComment (body.takeWhile (· != newline)), body.dropWhile (· != newline))
  else if b = slash ∧ rest.head? = some star then
    let e := commentBody (rest.drop 1)
    (blockComment e.body e.closed, e.rest)
  else if startsWord b then
    (word (b :: rest.takeWhile continuesWord), rest.dropWhile continuesWord)
  else if isDigit b then (number (b :: rest.takeWhile isDigit), rest.dropWhile isDigit)
  else if b = quote then
    let e := stringBody rest
    (quoted e.body e.closed, e.rest)
  else match signAt? (b :: rest) with
    | some (spelling, token) => (sign spelling token, (b :: rest).drop spelling.length)
    | none => (stray b, rest)

/-- The text an enclosed stretch was cut from, with `close` as its closing sign. -/
def Enclosed.bytes (close : List UInt8) (e : Enclosed) : List UInt8 :=
  e.body ++ (if e.closed then close else []) ++ e.rest

theorem Enclosed.bytes_push (close : List UInt8) (b : UInt8) (e : Enclosed) :
    (e.push b).bytes close = b :: e.bytes close := rfl

theorem bytes_commentBody (text : List UInt8) :
    (commentBody text).bytes [star, slash] = text := by
  fun_induction commentBody text with
  | case1 => rfl
  | case2 => rfl
  | case3 b c rest h => simp [Enclosed.bytes, h]
  | case4 b c rest h ih => rw [Enclosed.bytes_push, ih]

theorem bytes_stringBody (text : List UInt8) : (stringBody text).bytes [quote] = text := by
  fun_induction stringBody text with
  | case1 => rfl
  | case2 => simp [Enclosed.bytes]
  | case3 => simp [Enclosed.bytes]
  | case4 => rfl
  | case5 _ _ c rest ih => rw [Enclosed.bytes_push, Enclosed.bytes_push, ih]
  | case6 b rest _ _ _ ih => rw [Enclosed.bytes_push, ih]

theorem isPrefixOf_of_signAt? {bytes spelling : List UInt8} {token : Token}
    (h : signAt? bytes = some (spelling, token)) : spelling.isPrefixOf bytes = true := by
  have := List.find?_some h
  simpa using this

theorem spelling_ne_nil_of_signAt? {bytes spelling : List UInt8} {token : Token}
    (h : signAt? bytes = some (spelling, token)) : spelling ≠ [] := by
  have mem := List.mem_of_find?_eq_some h
  have all : ∀ s ∈ signTable, s.1 ≠ [] := by decide
  exact all _ mem

/-- A piece and what follows it are the text it was cut from. -/
theorem bytes_next (b : UInt8) (rest : List UInt8) :
    (next b rest).1.bytes ++ (next b rest).2 = b :: rest := by
  unfold next
  split
  · simp [bytes]
  split
  · next h =>
    obtain ⟨rfl, h⟩ := h
    obtain ⟨tail, rfl⟩ : ∃ tail, rest = slash :: tail := by
      cases rest <;> simp_all
    simp [bytes]
  split
  · next h =>
    obtain ⟨rfl, h⟩ := h
    obtain ⟨tail, rfl⟩ : ∃ tail, rest = star :: tail := by
      cases rest <;> simp_all
    simpa [bytes, Enclosed.bytes] using bytes_commentBody tail
  split
  · simp [bytes]
  split
  · simp [bytes]
  split
  · next h =>
    subst h
    simpa [bytes, Enclosed.bytes] using bytes_stringBody rest
  split
  · next spelling token h =>
    obtain ⟨tail, h⟩ := List.isPrefixOf_iff_prefix.mp (isPrefixOf_of_signAt? h)
    simp [bytes, ← h]
  · simp [bytes]

theorem bytes_next_ne_nil (b : UInt8) (rest : List UInt8) : (next b rest).1.bytes ≠ [] := by
  unfold next
  repeat' split
  case h_1 h => exact spelling_ne_nil_of_signAt? h
  all_goals simp [bytes]

theorem length_next_lt (b : UInt8) (rest : List UInt8) :
    (next b rest).2.length < (b :: rest).length := by
  have h := congrArg List.length (bytes_next b rest)
  have pos := List.length_pos_iff.mpr (bytes_next_ne_nil b rest)
  simp only [List.length_append, List.length_cons] at h ⊢
  omega

/-- All pieces of a text, in order. -/
def cut : List UInt8 → List Piece
  | [] => []
  | b :: rest => (next b rest).1 :: cut (next b rest).2
termination_by text => text.length
decreasing_by exact length_next_lt b rest

/-- The pieces of a text, put together again, are the text. -/
theorem flatMap_bytes_cut (text : List UInt8) : (cut text).flatMap bytes = text := by
  fun_induction cut text with
  | case1 => rfl
  | case2 b rest ih => rw [List.flatMap_cons, ih, bytes_next]

end Piece

end JavaFold
