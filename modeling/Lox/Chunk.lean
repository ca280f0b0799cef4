import Lox.Function
import Lox.Instruction

/-! # Chunks

Code is written byte by byte, each with its source line, and its constants are added one by one. A jump is
written before its distance is known, so the word of its operand can be overwritten later. -/

namespace Lox

namespace Chunk

/-- The largest number of constants in a pool, since an index is a byte. -/
def maxConstants : Nat := 256

/-- The number of bytes of code. -/
def size (chunk : Chunk) : Nat := chunk.code.size

/-- Adds a byte at the end of the code. -/
def write (chunk : Chunk) (byte : UInt8) (line : UInt32) : Chunk :=
  { chunk with code := chunk.code.push byte, lines := chunk.lines.push line }

/-- Adds a constant at the end of the pool and gives its index, unless the pool is full. Equal constants are not
    merged. -/
def addConstant? (chunk : Chunk) (constant : Constant) : Option (UInt8 × Chunk) :=
  let count := chunk.constants.length
  if count < maxConstants then
    some (UInt8.ofNat count, { chunk with constants := chunk.constants ++ [constant] })
  else none

/-- The constant with the given index. -/
def constant? (chunk : Chunk) (index : UInt8) : Option Constant := chunk.constants[index.toNat]?

/-- The source line of the byte at `offset`. -/
def line? (chunk : Chunk) (offset : Nat) : Option UInt32 := chunk.lines[offset]?

/-- The word at `offset`, high byte first. -/
def word? (chunk : Chunk) (offset : Nat) : Option UInt16 :=
  match chunk.code[offset]?, chunk.code[offset + 1]? with
  | some high, some low => some (wordOfBytes high low)
  | _, _ => none

/-- Overwrites the word at `offset`, high byte first. A byte outside the code is not written. -/
def patch (chunk : Chunk) (offset : Nat) (word : UInt16) : Chunk :=
  { chunk with
    code := (chunk.code.setIfInBounds offset (highByte word)).setIfInBounds (offset + 1) (lowByte word) }

end Chunk

end Lox
