import JavaFold.Toml.Decimal
import JavaFold.Toml.Value

/-!
# Unquoted TOML values

Numbers, truth values and dates. Digits may have single low lines between them. An integer has 64
bits; it can be written in base 2, 8 or 16 without a sign, and in base 10 without leading zeros. A
number with a fraction or an exponent is refused if it is too great, but not if it is too small.
-/

namespace JavaFold.Toml

namespace Scalar

/-- The value of a hexadecimal digit. -/
def hexValue? (c : Char) : Option Nat :=
  if '0' ≤ c ∧ c ≤ '9' then some (c.toNat - '0'.toNat)
  else if 'a' ≤ c ∧ c ≤ 'f' then some (c.toNat - 'a'.toNat + 10)
  else if 'A' ≤ c ∧ c ≤ 'F' then some (c.toNat - 'A'.toNat + 10)
  else none

/-- The value of a digit in a base of at most sixteen. -/
def digitValue? (base : Nat) (c : Char) : Option Nat := (hexValue? c).filter (· < base)

/-- The number that digits write after `n`. Single low lines may stand between digits. -/
def digits? (base n : Nat) : List Char → Option Nat
  | [] => none
  | [c] => do return n * base + (← digitValue? base c)
  | c :: '_' :: rest => do digits? base (n * base + (← digitValue? base c)) rest
  | c :: rest => do digits? base (n * base + (← digitValue? base c)) rest

/-- A number in base ten without leading zeros. -/
def whole? : List Char → Option Nat
  | ['0'] => some 0
  | '0' :: _ => none
  | cs => digits? 10 0 cs

/-- A sign, if there is one, and what follows it. -/
def sign : List Char → Int × List Char
  | '-' :: rest => (-1, rest)
  | '+' :: rest => (1, rest)
  | cs => (1, cs)

/-- The least number that is too great for a signed number of 64 bits. -/
def integerLimit : Int := 9223372036854775808

/-- An integer of 64 bits. -/
def integer? (cs : List Char) : Option Int := do
  let value : Int ← match cs with
    | '0' :: 'x' :: rest => (digits? 16 0 rest).map Int.ofNat
    | '0' :: 'o' :: rest => (digits? 8 0 rest).map Int.ofNat
    | '0' :: 'b' :: rest => (digits? 2 0 rest).map Int.ofNat
    | _ =>
      let (s, rest) := sign cs
      (whole? rest).map (s * Int.ofNat ·)
  if -integerLimit ≤ value ∧ value < integerLimit then some value else none

/-- The power of ten that an exponent asks for, or none where nothing follows. -/
def exponent? : List Char → Option Int
  | [] => some 0
  | c :: rest =>
    let (s, rest) := sign rest
    if c = 'e' ∨ c = 'E' then (digits? 10 0 rest).map (s * Int.ofNat ·) else none

/-- A number without a sign that has a fraction, an exponent or both. -/
def decimal? (cs : List Char) : Option Decimal := do
  let isPart := fun c : Char => c.isDigit || c = '_'
  let n ← whole? (cs.takeWhile isPart)
  match cs.dropWhile isPart with
  | [] => none
  | '.' :: rest =>
    let places := rest.takeWhile isPart
    let e ← exponent? (rest.dropWhile isPart)
    return ⟨← digits? 10 n places, e - Int.ofNat (places.filter Char.isDigit).length⟩
  | rest => return ⟨n, ← exponent? rest⟩

/-- Whether the text is a number with a fraction or an exponent that is not too great, or one of the
two names of values that are no number of that kind. -/
def isFloat (cs : List Char) : Bool :=
  let (s, rest) := sign cs
  rest = ['i', 'n', 'f'] || rest = ['n', 'a', 'n'] ||
    (decimal? rest).any fun d => s = -1 || !d.overflows

/-- A number of exactly `width` digits within bounds, and what follows it. -/
def fixed? (width low high : Nat) (cs : List Char) : Option (Nat × List Char) := do
  let head := cs.take width
  if head.length = width ∧ head.all Char.isDigit then
    let n := head.foldl (fun n c => n * 10 + (c.toNat - '0'.toNat)) 0
    if low ≤ n ∧ n ≤ high then some (n, cs.drop width) else none
  else
    none

/-- What follows the character `c`. -/
def after? (c : Char) : List Char → Option (List Char)
  | d :: rest => if d = c then some rest else none
  | [] => none

/-- The number of days of a month. -/
def daysIn (year month : Nat) : Nat :=
  if month = 2 then if year % 4 = 0 ∧ (year % 100 ≠ 0 ∨ year % 400 = 0) then 29 else 28
  else if month = 4 ∨ month = 6 ∨ month = 9 ∨ month = 11 then 30
  else 31

/-- Reads a date. -/
def date? (cs : List Char) : Option (List Char) := do
  let (year, cs) ← fixed? 4 0 9999 cs
  let cs ← after? '-' cs
  let (month, cs) ← fixed? 2 1 12 cs
  let cs ← after? '-' cs
  let (_, cs) ← fixed? 2 1 (daysIn year month) cs
  return cs

/-- Reads a time. -/
def time? (cs : List Char) : Option (List Char) := do
  let (_, cs) ← fixed? 2 0 23 cs
  let cs ← after? ':' cs
  let (_, cs) ← fixed? 2 0 59 cs
  let cs ← after? ':' cs
  let (_, cs) ← fixed? 2 0 60 cs
  match cs with
  | '.' :: rest =>
    if rest.head?.any Char.isDigit then some (rest.dropWhile Char.isDigit) else none
  | cs => some cs

/-- Whether the text is nothing or a difference from universal time. -/
def isOffset : List Char → Bool
  | [] => true
  | ['Z'] | ['z'] => true
  | c :: cs =>
    (c = '+' || c = '-') &&
      (do
        let (_, cs) ← fixed? 2 0 23 cs
        let cs ← after? ':' cs
        let (_, cs) ← fixed? 2 0 59 cs
        return cs) == some []

/-- Whether the text is a date, a time, or both. -/
def isDateTime (cs : List Char) : Bool :=
  time? cs == some [] ||
    match date? cs with
    | some [] => true
    | some (c :: rest) => (c = 'T' || c = 't' || c = ' ') && ((time? rest).any isOffset)
    | none => false

/-- The value that an unquoted text writes. -/
def ofText? (cs : List Char) : Option Value :=
  if cs = ['t', 'r', 'u', 'e'] then some (.boolean true)
  else if cs = ['f', 'a', 'l', 's', 'e'] then some (.boolean false)
  else if isDateTime cs then some (.dateTime (String.ofList cs))
  else match integer? cs with
    | some n => some (.integer n)
    | none => if isFloat cs then some (.float (String.ofList cs)) else none

/-- Whether a character can be part of an unquoted value. -/
def isPart (c : Char) : Bool :=
  c.isAlphanum || c = '+' || c = '-' || c = '.' || c = ':' || c = '_'

/-- Reads an unquoted value. A date may have one space between it and a time. -/
def read? (cs : List Char) : Option (Value × List Char) := do
  let run := cs.takeWhile isPart
  let rest := cs.dropWhile isPart
  match rest with
  | ' ' :: more =>
    if date? run = some [] ∧ more.head?.any Char.isDigit then
      return (← ofText? (run ++ ' ' :: more.takeWhile isPart), more.dropWhile isPart)
    else
      return (← ofText? run, rest)
  | _ => return (← ofText? run, rest)

end Scalar

end JavaFold.Toml
