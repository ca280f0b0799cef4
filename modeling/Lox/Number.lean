/-! # Numbers as bits

A Lox number is a binary64 floating-point number. This module reads its 64 bits as a sign and a natural number
times a power of two, the form in which decimal digits are chosen exactly. -/

namespace Lox

/-- What the 64 bits of a number stand for. -/
inductive Number where
  | nan
  | infinite (negative : Bool)
  /-- The number `± significand · 2 ^ exponent`. -/
  | finite (negative : Bool) (significand : Nat) (exponent : Int)
deriving DecidableEq, Repr

namespace Number

/-- The least significand of a number that is not subnormal. -/
def leastNormal : Nat := Nat.pow 2 52

/-- The exponent of the subnormal numbers, the smallest there is. -/
def leastExponent : Int := -1074

/-- The bits of positive infinity. Those of every finite nonnegative number are smaller. -/
def infinityBits : Nat := 2047 * leastNormal

/-- Reads the bits of a number. -/
def ofBits (bits : UInt64) : Number :=
  let negative := bits.toNat / Nat.pow 2 63 == 1
  let biased := bits.toNat / leastNormal % 2048
  let fraction := bits.toNat % leastNormal
  if biased = 2047 then
    if fraction = 0 then infinite negative else nan
  else if biased = 0 then finite negative fraction leastExponent
  else finite negative (leastNormal + fraction) (leastExponent + (biased - 1 : Nat))

end Number

end Lox
