import JavaFold.Program.Modifier
import JavaFold.Source.Span

/-!
# Diagnostics

What can be wrong with a source text. A `Problem` is the cause; its wording is in `Problem.message`
and, where there is advice to give, in `Problem.help?`. All problems are errors: a text with one of
them is not accepted.
-/

namespace JavaFold

/-- What is wrong at a place of the source text. -/
inductive Problem
  | unterminatedComment
  | unterminatedString
  | unknownEscape
  | integerTooLarge (digits : String)
  | unexpectedByte (byte : UInt8)
  | nestingTooDeep
  | expectedToken (wanted found : Token)
  | expectedIdentifier (found : Token)
  | expectedClass (found : Token)
  | expectedType (found : Token)
  | expectedExpression (found : Token)
  | repeatedModifier (modifier : Modifier)
  | voidField
  | voidLocal
  | declarationNotAllowed
  | notAssignable
  | stepNeedsVariable (op : StepOp)
  | integerOutOfRange (value : Nat)
deriving DecidableEq, Repr, Inhabited

namespace Problem

/-- A number below 16 as an upper-case hexadecimal digit. -/
def hexDigit (n : Nat) : Char :=
  if n < 10 then Char.ofNat (48 + n) else Char.ofNat (55 + n)

/-- A byte as the four-digit number of the character it would be if it stood alone. -/
def codePoint (byte : UInt8) : String :=
  String.ofList ['U', '+', '0', '0', hexDigit (byte.toNat / 16), hexDigit (byte.toNat % 16)]

/-- The deepest nesting of blocks, bodies and operands that is accepted. -/
def nestingLimit : Nat := 256

def message : Problem → String
  | unterminatedComment => "unterminated block comment"
  | unterminatedString => "unterminated string literal"
  | unknownEscape => "unknown escape sequence"
  | integerTooLarge digits => "integer literal '" ++ digits ++ "' is too large"
  | unexpectedByte byte =>
    "unexpected character '" ++ String.singleton (Char.ofNat byte.toNat) ++ "' (" ++
      codePoint byte ++ ")"
  | nestingTooDeep => "nesting depth exceeded (maximum 256 levels)"
  | expectedToken wanted found =>
    "expected " ++ wanted.description ++ ", found " ++ found.description
  | expectedIdentifier found => "expected identifier, found " ++ found.description
  | expectedClass found => "expected 'class', found " ++ found.description
  | expectedType found => "expected type, found " ++ found.description
  | expectedExpression found => "expected expression, found " ++ found.description
  | repeatedModifier modifier => "repeated modifier '" ++ modifier.text ++ "'"
  | voidField => "a field cannot have type 'void'"
  | voidLocal => "a local variable cannot have type 'void'"
  | declarationNotAllowed => "a declaration is not allowed here"
  | notAssignable => "invalid assignment target"
  | stepNeedsVariable op => "operand of '" ++ op.symbol ++ "' must be a variable"
  | integerOutOfRange value => "integer literal " ++ toString value ++ " is out of range for 'int'"

def help? : Problem → Option String
  | unterminatedComment => some "close the comment with `*/`"
  | unterminatedString => some "string literals must close on the same line"
  | integerTooLarge _ => some "the largest int literal is 2147483647"
  | unexpectedByte _ => some "this character is not part of the supported Java subset"
  | nestingTooDeep => some "extract deeply nested code into separate methods"
  | expectedClass _ =>
    some "a compilation unit is a sequence of `class Name \x7b ... \x7d` declarations"
  | expectedType _ =>
    some "supported types are `int`, `boolean`, `void` and class names like `String`"
  | declarationNotAllowed => some "wrap the declaration in braces: `\x7b ... \x7d`"
  | notAssignable => some "only variables and fields can be assigned"
  | integerOutOfRange _ => some "int literals range from -2147483648 to 2147483647"
  | _ => none

end Problem

/-- A problem and where it is. -/
structure Diagnostic where
  problem : Problem
  span : Span
deriving DecidableEq, Repr, Inhabited

end JavaFold
