/-!
# Decimal numbers in TOML

A number with a fraction or an exponent stands for the double next to it. A number that is too great
for doubles has none, and `Decimal.overflows` says which ones these are, in exact arithmetic.
-/

namespace JavaFold.Toml

/-- The number `digits · 10 ^ exponent`. -/
structure Decimal where
  digits : Nat
  exponent : Int
deriving DecidableEq, Repr, Inhabited

namespace Decimal

/-- The number in the middle between the greatest double, `(2 ^ 53 - 1) · 2 ^ 971`, and `2 ^ 1024`.
From here on numbers are rounded out of the range of doubles. -/
def doubleLimit : Nat := (Nat.pow 2 54 - 1) * Nat.pow 2 970

/-- How many digits the limit has. -/
def limitWidth : Nat := 309

/-- Whether a number is too great for doubles. Only a number with as many digits before the point as
the limit has to be compared with it, so exponents of any size are harmless. -/
def overflows (d : Decimal) : Bool :=
  let width := (Nat.toDigits 10 d.digits).length
  let before := d.exponent + Int.ofNat width
  if d.digits = 0 ∨ before < Int.ofNat limitWidth then false
  else if Int.ofNat limitWidth < before then true
  else
    doubleLimit * Nat.pow 10 (width - limitWidth) ≤ d.digits * Nat.pow 10 (limitWidth - width)

end Decimal

end JavaFold.Toml
