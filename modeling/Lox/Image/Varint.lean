/-! # Numbers of variable length

A natural number is written in groups of seven bits, the lowest group first, each in a byte whose high
bit says that another group follows. A reader accepts a bounded number of groups and does not ask for
the shortest form. -/

namespace Lox.Image

/-- Why the bytes of an image cannot be read. -/
inductive Problem where
  | endOfBuffer
  | badVarint
  | badBool
  | badOption
  | badText
  /-- A tag that belongs to no kind of value. -/
  | badTag
deriving DecidableEq, Repr

/-- The wording of a problem. -/
def Problem.message : Problem → String
  | endOfBuffer => "Hit the end of buffer, expected more data"
  | badVarint => "Found a varint that didn't terminate. Is the usize too big for this platform?"
  | badBool => "Found a bool that wasn't 0 or 1"
  | badOption => "Found an Option discriminant that wasn't 0 or 1"
  | badText => "Tried to parse invalid utf-8"
  | badTag => "Serde Deserialization Error"

/-- Reads a value off the front of the bytes and leaves the rest. -/
abbrev Reader (α : Type) := List UInt8 → Except Problem (α × List UInt8)

/-- Reads one byte. -/
def Reader.byte : Reader UInt8
  | [] => .error .endOfBuffer
  | b :: rest => .ok (b, rest)

/-- Writes `n` in a group and `more` groups after it. -/
def groups (n : Nat) : (more : Nat) → List UInt8
  | 0 => [UInt8.ofNat n]
  | more + 1 => UInt8.ofNat (n % 128 + 128) :: groups (n / 128) more

/-- Writes a number in as few groups as it takes. -/
def varint (n : Nat) : List UInt8 := groups n (n.log2 / 7)

/-- Reads a number of at most `more + 1` groups, of which the last possible one is at most `limit`. -/
def Reader.groups (limit : UInt8) (more : Nat) : Reader Nat
  | [] => .error .endOfBuffer
  | b :: rest =>
    match more with
    | 0 => if b ≤ limit then .ok (b.toNat, rest) else .error .badVarint
    | more + 1 =>
      if b < 128 then .ok (b.toNat, rest)
      else match Reader.groups limit more rest with
        | .ok (high, rest) => .ok (b.toNat - 128 + 128 * high, rest)
        | .error problem => .error problem

/-- Reads a number of 32 bits. -/
def Reader.varint32 : Reader Nat := Reader.groups 0x0f 4

/-- Reads a number of 64 bits. -/
def Reader.varint64 : Reader Nat := Reader.groups 0x01 9

end Lox.Image
