import JavaFold.Toml.Scalar

/-!
# Quoted TOML texts

Basic strings have escapes, literal strings have none; both also exist in a form that goes over
several lines, in which up to two quotes in a row are part of the text. Control characters other
than tab are refused.
-/

namespace JavaFold.Toml

namespace Quoted

/-- Whether a character may stand in a text as it is. -/
def isPlain (c : Char) : Bool := c = '\t' || (' ' ≤ c && c ≠ '\x7f')

/-- The value of hexadecimal digits. -/
def hex? (cs : List Char) : Option Nat :=
  cs.foldlM (fun n c => return n * 16 + (← Scalar.hexValue? c)) 0

/-- The character with the code that hexadecimal digits write. -/
def charOfHex? (cs : List Char) : Option Char := do
  let n ← hex? cs
  if n.isValidChar then some (Char.ofNat n) else none

/-- The character that a backslash in front of `c` writes. -/
def escaped? (c : Char) : Option Char :=
  match c with
  | 'b' => some '\x08'
  | 't' => some '\t'
  | 'n' => some '\n'
  | 'f' => some '\x0c'
  | 'r' => some '\r'
  | '"' => some '"'
  | '\\' => some '\\'
  | _ => none

/-- A character in front of a text that has been read. -/
def push? (c : Char) : Option (List Char × List Char) → Option (List Char × List Char)
  | some (text, rest) => some (c :: text, rest)
  | none => none

/-- Reads a basic string up to its closing quote. -/
def basic? : List Char → Option (List Char × List Char)
  | [] => none
  | '"' :: rest => some ([], rest)
  | '\\' :: 'u' :: a :: b :: c :: d :: rest => do
    push? (← charOfHex? [a, b, c, d]) (basic? rest)
  | '\\' :: 'U' :: a :: b :: c :: d :: e :: f :: g :: h :: rest => do
    push? (← charOfHex? [a, b, c, d, e, f, g, h]) (basic? rest)
  | '\\' :: c :: rest => do push? (← escaped? c) (basic? rest)
  | c :: rest => if isPlain c ∧ c ≠ '\\' then push? c (basic? rest) else none

/-- Reads a literal string up to its closing quote. -/
def literal? : List Char → Option (List Char × List Char)
  | [] => none
  | '\'' :: rest => some ([], rest)
  | c :: rest => if isPlain c then push? c (literal? rest) else none

/-- Leaves out a line end at the start of a text. -/
def skipLineEnd : List Char → List Char
  | '\r' :: '\n' :: rest => rest
  | '\n' :: rest => rest
  | cs => cs

/-- The quotes of a text that stand right before its closing ones, and what follows. -/
def close (q : Char) : List Char → List Char × List Char
  | a :: b :: rest =>
    if a = q ∧ b = q then ([q, q], rest)
    else if a = q then ([q], b :: rest)
    else ([], a :: b :: rest)
  | [a] => if a = q then ([q], []) else ([], [a])
  | [] => ([], [])

/-- Whether only blanks stand before the next line end. -/
def lineEnds (cs : List Char) : Bool :=
  match cs.dropWhile fun c => c = ' ' || c = '\t' with
  | '\n' :: _ => true
  | '\r' :: '\n' :: _ => true
  | _ => false

/-- Reads a basic string of several lines up to its closing quotes. While `trimming`, blanks and
line ends are left out: a backslash at the end of a line leaves them out up to the next text. -/
def basicLines? (trimming : Bool) : List Char → Option (List Char × List Char)
  | [] => none
  | '"' :: '"' :: '"' :: rest => some (close '"' rest)
  | '\r' :: '\n' :: rest =>
    if trimming then basicLines? true rest else push? '\n' (basicLines? false rest)
  | '\n' :: rest =>
    if trimming then basicLines? true rest else push? '\n' (basicLines? false rest)
  | '\\' :: 'u' :: a :: b :: c :: d :: rest => do
    push? (← charOfHex? [a, b, c, d]) (basicLines? false rest)
  | '\\' :: 'U' :: a :: b :: c :: d :: e :: f :: g :: h :: rest => do
    push? (← charOfHex? [a, b, c, d, e, f, g, h]) (basicLines? false rest)
  | '\\' :: c :: rest =>
    if lineEnds (c :: rest) then basicLines? true rest
    else do push? (← escaped? c) (basicLines? false rest)
  | c :: rest =>
    if trimming ∧ (c = ' ' ∨ c = '\t') then basicLines? true rest
    else if isPlain c ∧ c ≠ '\\' then push? c (basicLines? false rest)
    else none

/-- Reads a literal string of several lines up to its closing quotes. -/
def literalLines? : List Char → Option (List Char × List Char)
  | [] => none
  | '\'' :: '\'' :: '\'' :: rest => some (close '\'' rest)
  | '\r' :: '\n' :: rest => push? '\n' (literalLines? rest)
  | '\n' :: rest => push? '\n' (literalLines? rest)
  | c :: rest => if isPlain c then push? c (literalLines? rest) else none

/-- Reads a text between quotes on one line. -/
def key? : List Char → Option (List Char × List Char)
  | '"' :: rest => basic? rest
  | '\'' :: rest => literal? rest
  | _ => none

/-- Reads a text between quotes of any form. -/
def read? : List Char → Option (List Char × List Char)
  | '"' :: '"' :: '"' :: rest => basicLines? false (skipLineEnd rest)
  | '\'' :: '\'' :: '\'' :: rest => literalLines? (skipLineEnd rest)
  | cs => key? cs

end Quoted

end JavaFold.Toml
