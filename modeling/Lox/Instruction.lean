import Lox.Opcode

/-! # Instructions

An instruction is an opcode with its operands. Its bytes are the opcode followed by the operand bytes; an
operand of two bytes has the high byte first. `Instruction.read` is the one reader of code: listings, the
verifier and the machine all see a chunk through it. -/

namespace Lox

/-- The word with the given high and low bytes. -/
def wordOfBytes (high low : UInt8) : UInt16 := UInt16.ofNat (256 * high.toNat + low.toNat)

/-- The high byte of a word. -/
def highByte (word : UInt16) : UInt8 := UInt8.ofNat (word.toNat / 256)

/-- The low byte of a word. -/
def lowByte (word : UInt16) : UInt8 := UInt8.ofNat (word.toNat % 256)

theorem wordOfBytes_highByte_lowByte (word : UInt16) : wordOfBytes (highByte word) (lowByte word) = word := by
  have bound := word.toNat_lt
  apply UInt16.toNat_inj.mp
  simp [wordOfBytes, highByte, lowByte]
  omega

theorem highByte_wordOfBytes (high low : UInt8) : highByte (wordOfBytes high low) = high := by
  have hhigh := high.toNat_lt
  have hlow := low.toNat_lt
  apply UInt8.toNat_inj.mp
  simp [wordOfBytes, highByte]
  omega

theorem lowByte_wordOfBytes (high low : UInt8) : lowByte (wordOfBytes high low) = low := by
  apply UInt8.toNat_inj.mp
  simp [wordOfBytes, lowByte]

/-- An instruction of the machine. -/
inductive Instruction where
  /-- Push the constant with this index. -/
  | constant (index : UInt8)
  | nil
  | trueValue
  | falseValue
  | pop
  /-- Push the local in this slot of the frame. -/
  | getLocal (slot : UInt8)
  /-- Store the top of the stack, which stays, in this slot of the frame. -/
  | setLocal (slot : UInt8)
  /-- Push the global named by the constant with this index. -/
  | getGlobal (index : UInt8)
  /-- Create or overwrite the global named by this constant with the top of the stack, which is dropped. -/
  | defineGlobal (index : UInt8)
  /-- Overwrite the global named by this constant, which must exist, with the top of the stack, which stays. -/
  | setGlobal (index : UInt8)
  | equal
  | greater
  | less
  | add
  | subtract
  | multiply
  | divide
  | logicalNot
  | negate
  | print
  /-- Go forward by this distance from the next instruction. -/
  | jump (distance : UInt16)
  /-- Go forward if the top of the stack, which stays, is falsy. -/
  | jumpIfFalse (distance : UInt16)
  /-- Go back by this distance from the next instruction. -/
  | loop (distance : UInt16)
  /-- Call the value below this many arguments. -/
  | call (count : UInt8)
  | ret
deriving DecidableEq, Repr, Inhabited

namespace Instruction

/-- The tag of an instruction. -/
def opcode : Instruction → Opcode
  | constant _ => .constant
  | nil => .nil
  | trueValue => .trueValue
  | falseValue => .falseValue
  | pop => .pop
  | getLocal _ => .getLocal
  | setLocal _ => .setLocal
  | getGlobal _ => .getGlobal
  | defineGlobal _ => .defineGlobal
  | setGlobal _ => .setGlobal
  | equal => .equal
  | greater => .greater
  | less => .less
  | add => .add
  | subtract => .subtract
  | multiply => .multiply
  | divide => .divide
  | logicalNot => .logicalNot
  | negate => .negate
  | print => .print
  | jump _ => .jump
  | jumpIfFalse _ => .jumpIfFalse
  | loop _ => .loop
  | call _ => .call
  | ret => .ret

/-- How many bytes an instruction takes. -/
def size (instruction : Instruction) : Nat := 1 + instruction.opcode.width

/-- The operand bytes of an instruction. -/
def operands : Instruction → List UInt8
  | constant b | getLocal b | setLocal b | getGlobal b | defineGlobal b | setGlobal b | call b => [b]
  | jump w | jumpIfFalse w | loop w => [highByte w, lowByte w]
  | _ => []

/-- The bytes of an instruction. -/
def bytes (instruction : Instruction) : List UInt8 := instruction.opcode.byte :: instruction.operands

theorem length_bytes (instruction : Instruction) : instruction.bytes.length = instruction.size := by
  cases instruction <;> rfl

/-- What stands at a place in the code. -/
inductive Reading where
  | instruction (instruction : Instruction)
  /-- The byte there is no opcode. -/
  | unknown (byte : UInt8)
  /-- The code ends before the operands of this opcode do. -/
  | truncated (op : Opcode)
  /-- The code ends before this place. -/
  | pastEnd
deriving DecidableEq, Repr

/-- Reads what stands at `offset`. -/
def read (code : Array UInt8) (offset : Nat) : Reading :=
  match code[offset]? with
  | none => .pastEnd
  | some tag =>
    match Opcode.ofByte? tag with
    | none => .unknown tag
    | some op =>
      let withByte (make : UInt8 → Instruction) : Reading :=
        match code[offset + 1]? with
        | some b => .instruction (make b)
        | none => .truncated op
      let withWord (make : UInt16 → Instruction) : Reading :=
        match code[offset + 1]?, code[offset + 2]? with
        | some high, some low => .instruction (make (wordOfBytes high low))
        | _, _ => .truncated op
      match op with
      | .constant => withByte constant
      | .nil => .instruction nil
      | .trueValue => .instruction trueValue
      | .falseValue => .instruction falseValue
      | .pop => .instruction pop
      | .getLocal => withByte getLocal
      | .setLocal => withByte setLocal
      | .getGlobal => withByte getGlobal
      | .defineGlobal => withByte defineGlobal
      | .setGlobal => withByte setGlobal
      | .equal => .instruction equal
      | .greater => .instruction greater
      | .less => .instruction less
      | .add => .instruction add
      | .subtract => .instruction subtract
      | .multiply => .instruction multiply
      | .divide => .instruction divide
      | .logicalNot => .instruction logicalNot
      | .negate => .instruction negate
      | .print => .instruction print
      | .jump => withWord jump
      | .jumpIfFalse => withWord jumpIfFalse
      | .loop => withWord loop
      | .call => withByte call
      | .ret => .instruction ret

/-- The reader finds an instruction where its bytes were written, whatever stands around them. -/
theorem read_append (before : List UInt8) (instruction : Instruction) (after : List UInt8) :
    read (before ++ instruction.bytes ++ after).toArray before.length = .instruction instruction := by
  cases instruction <;> simp [read, bytes, operands, opcode, Opcode.ofByte?_byte, wordOfBytes_highByte_lowByte]

/-- Where a jump that stands at `offset` leads; `none` for a loop that would go back before the first byte,
    and for an instruction that is no jump. -/
def target? (offset : Nat) : Instruction → Option Nat
  | jump distance | jumpIfFalse distance => some (offset + 3 + distance.toNat)
  | loop distance => if distance.toNat ≤ offset + 3 then some (offset + 3 - distance.toNat) else none
  | _ => none

end Instruction

end Lox
