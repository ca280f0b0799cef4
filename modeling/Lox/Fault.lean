/-! # Faults

Why a run stops early, and the error that is reported for it: the fault with a trace of the calls
that were active. -/

namespace Lox

/-- Why a run stops early. -/
inductive Fault where
  | stepLimit (limit : Nat)
  | stackUnderflow
  | stackOverflow
  | noFrame
  /-- The code ended where a byte was wanted. -/
  | pastEnd
  | unknownOpcode (byte : UInt8)
  | constantRange (index : UInt8)
  /-- The constant that should name a global is not a string. -/
  | nameExpected (typeName : String)
  | localRange (slot : UInt8)
  | loopBeforeStart
  | undefinedVariable (name : String)
  | operandNotNumber
  | operandsNotNumbers
  | operandsNotAddable
  | notCallable
  | arity (expected given : UInt8)
  /-- A routine of the host failed with this complaint. -/
  | native (complaint : String)
  | output (complaint : String)
deriving DecidableEq, Repr

/-- The wording of a fault. -/
def Fault.message : Fault → String
  | stepLimit limit => "Execution step limit exceeded (" ++ toString limit ++ ")."
  | stackUnderflow => "Stack underflow."
  | stackOverflow => "Stack overflow."
  | noFrame => "No active call frame."
  | pastEnd => "Ran past the end of the chunk."
  | unknownOpcode byte => "Unknown opcode " ++ toString byte.toNat ++ "."
  | constantRange index => "Constant " ++ toString index.toNat ++ " out of range."
  | nameExpected typeName => "Expected a variable name but found " ++ typeName ++ "."
  | localRange slot => "Local slot " ++ toString slot.toNat ++ " out of range."
  | loopBeforeStart => "Loop jumps before the start of the chunk."
  | undefinedVariable name => "Undefined variable '" ++ name ++ "'."
  | operandNotNumber => "Operand must be a number."
  | operandsNotNumbers => "Operands must be numbers."
  | operandsNotAddable => "Operands must be two numbers or two strings."
  | notCallable => "Can only call functions."
  | arity expected given =>
    "Expected " ++ toString expected.toNat ++ " arguments but got " ++ toString given.toNat ++ "."
  | native complaint => complaint
  | output complaint => "Failed to write output: " ++ complaint ++ "."

/-- An active call in a trace: the line that it had reached and the name of its function. -/
structure TraceEntry where
  line : UInt32
  function : String
deriving DecidableEq, Repr

/-- A fault with the calls that were active, innermost first. -/
structure RuntimeError where
  fault : Fault
  trace : List TraceEntry
deriving DecidableEq, Repr

/-- A runtime error as text: the fault, and a line for each active call. -/
def RuntimeError.text (error : RuntimeError) : String :=
  error.trace.foldl
    (fun text entry => text ++ "\n[line " ++ toString entry.line.toNat ++ "] in " ++ entry.function)
    error.fault.message

end Lox
