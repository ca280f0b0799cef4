import Lox.Chunk

/-! # Verification

The verifier reads the code of a function once, from the first byte to the last, and checks that it is made of
whole instructions of which the last one returns, that every constant exists and every name is a string, and
that every jump leads to an instruction or to the end of the code. -/

namespace Lox

/-- What is wrong with the code of a function. -/
inductive Flaw where
  | lineTable (code lines : Nat)
  | unknownOpcode (offset : Nat) (byte : UInt8)
  | truncatedOperand (offset : Nat) (op : Opcode)
  | constantRange (offset : Nat) (index : UInt8)
  | nameNotString (offset : Nat) (op : Opcode)
  | jumpTarget (offset : Nat) (op : Opcode)
  | missingReturn
deriving DecidableEq, Repr

/-- The wording of a flaw. -/
def Flaw.message : Flaw → String
  | lineTable code lines => "line table has " ++ toString lines ++ " entries for " ++ toString code ++ " bytes"
  | unknownOpcode offset byte => "unknown opcode " ++ toString byte.toNat ++ " at " ++ toString offset
  | truncatedOperand offset op => op.mnemonic ++ " at " ++ toString offset ++ " is missing its operand"
  | constantRange offset index =>
    "constant " ++ toString index.toNat ++ " at " ++ toString offset ++ " is out of range"
  | nameNotString offset op => op.mnemonic ++ " at " ++ toString offset ++ " does not name a string constant"
  | jumpTarget offset op => op.mnemonic ++ " at " ++ toString offset ++ " jumps outside the instruction stream"
  | missingReturn => "chunk does not end with RETURN"

/-- A flaw with the function that has it. -/
structure Defect where
  function : String
  flaw : Flaw
deriving DecidableEq, Repr

/-- The wording of a defect. -/
def Defect.message (defect : Defect) : String := defect.function ++ ": " ++ defect.flaw.message

namespace Chunk

/-- What is wrong with the constant that an instruction at `offset` mentions. -/
def constantFlaw? (chunk : Chunk) (offset : Nat) (instruction : Instruction) : Option Flaw :=
  match instruction with
  | .constant index =>
    if (chunk.constant? index).isNone then some (.constantRange offset index) else none
  | .getGlobal index | .defineGlobal index | .setGlobal index =>
    match chunk.constant? index with
    | none => some (.constantRange offset index)
    | some (.string _) => none
    | some _ => some (.nameNotString offset instruction.opcode)
  | _ => none

/-- The instructions of a chunk from `offset` on, after those in `found`, each with its offset. At most
    `count` more are read. -/
def instructionsFrom (chunk : Chunk) (offset : Nat) (found : Array (Nat × Instruction)) :
    Nat → Except Flaw (Array (Nat × Instruction))
  | 0 => .ok found
  | count + 1 =>
    match Instruction.read chunk.code offset with
    | .pastEnd => .ok found
    | .unknown byte => .error (.unknownOpcode offset byte)
    | .truncated op => .error (.truncatedOperand offset op)
    | .instruction instruction =>
      match chunk.constantFlaw? offset instruction with
      | some flaw => .error flaw
      | none => chunk.instructionsFrom (offset + instruction.size) (found.push (offset, instruction)) count

/-- The instructions of a chunk, each with its offset. An instruction takes at least one byte. -/
def instructions (chunk : Chunk) : Except Flaw (Array (Nat × Instruction)) :=
  chunk.instructionsFrom 0 #[] chunk.size

/-- Marks the places to which a jump may lead: the starts of the instructions and the end of the code. -/
def landings (chunk : Chunk) (instructions : Array (Nat × Instruction)) : Array Bool :=
  let marks := (Array.replicate (chunk.size + 1) false).setIfInBounds chunk.size true
  instructions.foldl (fun marks (offset, _) => marks.setIfInBounds offset true) marks

/-- Whether an instruction is no jump, or a jump to one of the marked places. -/
def landsOn (marks : Array Bool) (offset : Nat) (instruction : Instruction) : Bool :=
  match instruction with
  | .jump _ | .jumpIfFalse _ | .loop _ =>
    match instruction.target? offset with
    | some target => marks[target]? == some true
    | none => false
  | _ => true

/-- Checks the code of one function. -/
def verify (chunk : Chunk) : Except Flaw Unit :=
  if chunk.code.size = chunk.lines.size then
    match chunk.instructions with
    | .error flaw => .error flaw
    | .ok instructions =>
      let marks := chunk.landings instructions
      match instructions.find? (fun (offset, instruction) => !landsOn marks offset instruction) with
      | some (offset, instruction) => .error (.jumpTarget offset instruction.opcode)
      | none => if instructions.back?.map (·.2) = some .ret then .ok () else .error .missingReturn
  else .error (.lineTable chunk.code.size chunk.lines.size)

end Chunk

namespace Function

/-- Checks the code of each function in turn. -/
def verifyEach : List Function → Except Defect Unit
  | [] => .ok ()
  | function :: functions =>
    match function.chunk.verify with
    | .error flaw => .error ⟨function.title, flaw⟩
    | .ok () => verifyEach functions

/-- Checks a function and every function inside it. -/
def verify (function : Function) : Except Defect Unit := verifyEach function.all

end Function

end Lox
