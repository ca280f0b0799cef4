/-! # Opcodes

The 25 instruction tags of the machine, in the order of their bytes, with the number of operand bytes that
follow each and its name in listings. -/

namespace Lox

/-- The tag of an instruction. -/
inductive Opcode where
  | constant
  | nil
  | trueValue
  | falseValue
  | pop
  | getLocal
  | setLocal
  | getGlobal
  | defineGlobal
  | setGlobal
  | equal
  | greater
  | less
  | add
  | subtract
  | multiply
  | divide
  | logicalNot
  | negate
  | print
  | jump
  | jumpIfFalse
  | loop
  | call
  | ret
deriving DecidableEq, Repr, Inhabited

namespace Opcode

/-- All opcodes in the order of their bytes. -/
def all : Array Opcode :=
  #[constant, nil, trueValue, falseValue, pop, getLocal, setLocal, getGlobal, defineGlobal, setGlobal, equal,
    greater, less, add, subtract, multiply, divide, logicalNot, negate, print, jump, jumpIfFalse, loop,
    call, ret]

/-- The byte of an opcode: its place among all opcodes. -/
def byte (op : Opcode) : UInt8 := UInt8.ofNat op.ctorIdx

/-- The opcode with a given byte. -/
def ofByte? (byte : UInt8) : Option Opcode := all[byte.toNat]?

/-- How many operand bytes follow the opcode. -/
def width : Opcode → Nat
  | constant | getLocal | setLocal | getGlobal | defineGlobal | setGlobal | call => 1
  | jump | jumpIfFalse | loop => 2
  | _ => 0

/-- The name of the opcode. -/
def name : Opcode → String
  | constant => "Constant"
  | nil => "Nil"
  | trueValue => "True"
  | falseValue => "False"
  | pop => "Pop"
  | getLocal => "GetLocal"
  | setLocal => "SetLocal"
  | getGlobal => "GetGlobal"
  | defineGlobal => "DefineGlobal"
  | setGlobal => "SetGlobal"
  | equal => "Equal"
  | greater => "Greater"
  | less => "Less"
  | add => "Add"
  | subtract => "Subtract"
  | multiply => "Multiply"
  | divide => "Divide"
  | logicalNot => "Not"
  | negate => "Negate"
  | print => "Print"
  | jump => "Jump"
  | jumpIfFalse => "JumpIfFalse"
  | loop => "Loop"
  | call => "Call"
  | ret => "Return"

/-- The name of the opcode in listings and messages. -/
def mnemonic : Opcode → String
  | constant => "CONSTANT"
  | nil => "NIL"
  | trueValue => "TRUE"
  | falseValue => "FALSE"
  | pop => "POP"
  | getLocal => "GET_LOCAL"
  | setLocal => "SET_LOCAL"
  | getGlobal => "GET_GLOBAL"
  | defineGlobal => "DEFINE_GLOBAL"
  | setGlobal => "SET_GLOBAL"
  | equal => "EQUAL"
  | greater => "GREATER"
  | less => "LESS"
  | add => "ADD"
  | subtract => "SUBTRACT"
  | multiply => "MULTIPLY"
  | divide => "DIVIDE"
  | logicalNot => "NOT"
  | negate => "NEGATE"
  | print => "PRINT"
  | jump => "JUMP"
  | jumpIfFalse => "JUMP_IF_FALSE"
  | loop => "LOOP"
  | call => "CALL"
  | ret => "RETURN"

theorem ofByte?_byte (op : Opcode) : ofByte? op.byte = some op := by
  cases op <;> rfl

end Opcode

end Lox
