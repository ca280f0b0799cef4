import Lox.Number

/-! # Writing decimals

A finite number is written with the fewest decimal digits that identify it: no shorter decimal lies among the
reals that round to it, and of those of that length the nearest is taken, the larger one on a tie. The digits
are always written positionally. -/

namespace Lox.Number

/-- The reals that round to a positive number, as fractions of a common denominator: the number itself and
    the points halfway to its two neighbours, which belong to the range if the significand is even. -/
structure Range where
  low : Nat
  value : Nat
  high : Nat
  unit : Nat
  closed : Bool

/-- The range of the number `significand · 2 ^ exponent`. Below a power of two the neighbours lie twice as
    close. -/
def Range.around (significand : Nat) (exponent : Int) : Range :=
  let scale := Nat.pow 2 exponent.toNat
  let narrow := significand = leastNormal ∧ leastExponent < exponent
  { low := (4 * significand - if narrow then 1 else 2) * scale
    value := 4 * significand * scale
    high := (4 * significand + 2) * scale
    unit := 4 * Nat.pow 2 (-exponent).toNat
    closed := significand % 2 = 0 }

/-- The multiple of `10 ^ place` that lies in the range and is nearest to its value, as the factor, if one of
    the two multiples next to the value lies in the range. -/
def Range.nearestMultiple? (range : Range) (place : Int) : Option Nat :=
  let shift := Nat.pow 10 (-place).toNat
  let step := range.unit * Nat.pow 10 place.toNat
  let value := range.value * shift
  let factor := value / step
  let below := factor * step
  let above := below + step
  let hasBelow := if range.closed then range.low * shift ≤ below else range.low * shift < below
  let hasAbove := if range.closed then above ≤ range.high * shift else above < range.high * shift
  if hasBelow ∧ hasAbove then some (if 2 * (value - below) < step then factor else factor + 1)
  else if hasBelow then some factor
  else if hasAbove then some (factor + 1)
  else none

/-- How many decimal digits a natural has. -/
def digitCount (n : Nat) : Nat := (Nat.toDigits 10 n).length

/-- The least power of ten above the value of the range, as its exponent. -/
def Range.magnitude (range : Range) : Int :=
  if range.unit ≤ range.value then digitCount (range.value / range.unit)
  else 1 - digitCount ((range.unit - 1) / range.value)

/-- The shortest decimal in the range, `factor · 10 ^ place`, searched from `place` downwards over `tries`
    grids; past these, the value itself up to the last grid. -/
def Range.shortestFrom (range : Range) (place : Int) : Nat → Nat × Int
  | 0 => (range.value * Nat.pow 10 (-place).toNat / (range.unit * Nat.pow 10 place.toNat), place)
  | tries + 1 =>
    match range.nearestMultiple? place with
    | some factor => (factor, place)
    | none => range.shortestFrom (place - 1) tries

/-- The shortest decimal `factor · 10 ^ place` that reads back as the positive number
    `significand · 2 ^ exponent`. Seventeen digits always do. -/
def shortest (significand : Nat) (exponent : Int) : Nat × Int :=
  let range := Range.around significand exponent
  range.shortestFrom (range.magnitude - 1) 17

/-- The decimal `factor · 10 ^ place`, positionally and without zeros at the end of its fraction. -/
def positional (factor : Nat) (place : Int) : String :=
  let digits := Nat.toDigits 10 factor
  if 0 ≤ place then String.ofList (digits ++ List.replicate place.toNat '0')
  else
    let places := (-place).toNat
    let digits := digits.leftpad (places + 1) '0'
    let whole := digits.take (digits.length - places)
    let fraction := ((digits.drop (digits.length - places)).reverse.dropWhile (· == '0')).reverse
    String.ofList (if fraction.isEmpty then whole else whole ++ '.' :: fraction)

/-- The text of a number. A NaN has no sign, and zero keeps its own. -/
def text : Number → String
  | nan => "NaN"
  | infinite negative => if negative then "-inf" else "inf"
  | finite negative significand exponent =>
    let sign := if negative then "-" else ""
    if significand = 0 then sign ++ "0"
    else
      let (factor, place) := shortest significand exponent
      sign ++ positional factor place

end Lox.Number
