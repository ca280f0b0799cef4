import Lox.Number

/-! # Reading decimals

The bits of the number nearest to a ratio of naturals, a tie going to the even significand, and the reading of a
number literal as such a ratio. -/

namespace Lox.Number

/-- The quotient of two naturals rounded to the nearest natural, a tie to the even one. -/
def roundEven (num den : Nat) : Nat :=
  let floor := num / den
  let rest := num % den
  if 2 * rest < den then floor
  else if den < 2 * rest then floor + 1
  else floor + floor % 2

/-- The quotient of `num` and `den · 2 ^ exponent`, rounded to the nearest natural. -/
def significandAt (num den : Nat) (exponent : Int) : Nat :=
  roundEven (num * Nat.pow 2 (-exponent).toNat) (den * Nat.pow 2 exponent.toNat)

/-- The exponent at which the ratio `num / den` has a significand of 53 binary digits, or the least exponent if
    the ratio is too small for that many. -/
def exponentOf (num den : Nat) : Int :=
  let guess : Int := (num.log2 : Int) - den.log2 - 53
  let exponent := max leastExponent guess
  if num * Nat.pow 2 (-exponent).toNat / (den * Nat.pow 2 exponent.toNat) < 2 * leastNormal then exponent
  else exponent + 1

/-- The bits of the number nearest to the ratio `num / den`; infinity if the ratio is too large. -/
def nearest (num den : Nat) : UInt64 :=
  let exponent := exponentOf num den
  let significand := significandAt num den exponent
  let bits :=
    if significand < leastNormal then significand
    else (exponent - leastExponent).toNat * leastNormal + significand
  UInt64.ofNat (min bits infinityBits)

/-- The bits of a number literal: digits, or digits, a point and digits. -/
def ofLiteral (lexeme : String) : UInt64 :=
  let (whole, fraction) := lexeme.toList.span (· != '.')
  let places := fraction.drop 1
  let value := (whole ++ places).foldl (fun value c => 10 * value + (c.toNat - '0'.toNat)) 0
  nearest value (Nat.pow 10 places.length)

end Lox.Number
