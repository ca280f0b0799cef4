import Lox.Function
import Lox.Image.Varint

/-! # Writing images

The bytes of a function: the arity, the code, the lines, the constants and the name, each sequence after its
length. A routine of the host has no bytes. -/

namespace Lox

namespace Image

/-- The bytes of a text after their number. -/
def textBytes (text : String) : List UInt8 :=
  let bytes := text.toUTF8.toList
  varint bytes.length ++ bytes

/-- The bytes of an optional name. -/
def nameBytes : Option String → List UInt8
  | none => [0]
  | some name => 1 :: textBytes name

/-- The eight bytes of a number, the lowest first. -/
def numberBytes (bits : UInt64) : List UInt8 :=
  (List.range 8).map fun i => UInt8.ofNat (bits.toNat / Nat.pow 256 i)

end Image

open Image

mutual

/-- The bytes of a function; `none` if a routine of the host is among its constants. -/
def Function.encode? : Function → Option (List UInt8)
  | ⟨arity, chunk, name⟩ => do
    let body ← chunk.encode?
    some (arity :: (body ++ nameBytes name))

/-- The bytes of a chunk. -/
def Chunk.encode? : Chunk → Option (List UInt8)
  | ⟨code, lines, constants⟩ => do
    let pool ← Constant.encodeAll? constants
    some (varint code.size ++ code.toList ++
      (varint lines.size ++ lines.toList.flatMap fun line => varint line.toNat) ++
      (varint constants.length ++ pool))

/-- The bytes of the constants of a pool. -/
def Constant.encodeAll? : List Constant → Option (List UInt8)
  | [] => some []
  | constant :: constants => do
    let first ← constant.encode?
    let rest ← Constant.encodeAll? constants
    some (first ++ rest)

/-- The bytes of a constant: a tag and what the tag announces. -/
def Constant.encode? : Constant → Option (List UInt8)
  | .nil => some [0]
  | .bool b => some [1, if b then 1 else 0]
  | .number bits => some (2 :: numberBytes bits)
  | .string s => some (3 :: 0 :: textBytes s)
  | .function f => do
    let body ← f.encode?
    some (3 :: 1 :: body)
  | .native _ => none

end

end Lox
