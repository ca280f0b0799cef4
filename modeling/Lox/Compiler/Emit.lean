import Lox.Compiler

/-! # Writing code

Code goes to the end of the function that is being compiled, with the line of the last accepted token. A
forward jump is written with a placeholder for its distance, which is filled in once the code to jump
over is complete. -/

namespace Lox.Compiler

/-- The largest distance of a jump that the compiler writes. -/
def maxJump : Nat := 255 * 255

/-- The number of code bytes of the function that is being compiled. -/
def codeSize (c : Compiler) : Nat := c.body.function.chunk.size

/-- Writes a byte. -/
def writeByte (c : Compiler) (byte : UInt8) : Compiler :=
  { c with body.function.chunk := c.body.function.chunk.write byte c.previous.line }

/-- Writes the bytes of an instruction. -/
def emit (c : Compiler) (instruction : Instruction) : Compiler :=
  instruction.bytes.foldl writeByte c

/-- Writes the return of a function that has no result. -/
def emitBareReturn (c : Compiler) : Compiler := (c.emit .nil).emit .ret

/-- Adds a constant and gives its index; 0 if there is no room. -/
def addConstant (c : Compiler) (constant : Constant) : UInt8 × Compiler :=
  match c.body.function.chunk.addConstant? constant with
  | some (index, chunk) => (index, { c with body.function.chunk := chunk })
  | none => (0, c.report .tooManyConstants)

/-- Writes the push of a constant. -/
def emitConstant (c : Compiler) (constant : Constant) : Compiler :=
  let (index, c) := c.addConstant constant
  c.emit (.constant index)

/-- Writes a forward jump with a placeholder for its distance, and gives the place of the placeholder. -/
def openJump (c : Compiler) (jump : UInt16 → Instruction) : Nat × Compiler :=
  let c := c.emit (jump 0xffff)
  (c.codeSize - 2, c)

/-- Fills in the placeholder at `place`, so that its jump leads to the end of the code. -/
def closeJump (c : Compiler) (place : Nat) : Compiler :=
  let distance := c.codeSize - place - 2
  if distance ≤ maxJump then
    { c with body.function.chunk := c.body.function.chunk.patch place (UInt16.ofNat distance) }
  else c.report .jumpTooFar

/-- Writes a jump back to `start`. -/
def emitLoop (c : Compiler) (start : Nat) : Compiler :=
  let distance := c.codeSize + 3 - start
  let c := c.writeByte Opcode.loop.byte
  let c := if maxJump < distance then c.report .loopTooLarge else c
  let word := UInt16.ofNat (min distance 0xffff)
  (c.writeByte (highByte word)).writeByte (lowByte word)

/-- Completes the function that is being compiled. -/
def finish (c : Compiler) : Function × Compiler :=
  let c := c.emitBareReturn
  let function := c.body.function
  (function, if c.diagnostics.isEmpty then { c with finished := c.finished.push function } else c)

end Lox.Compiler
