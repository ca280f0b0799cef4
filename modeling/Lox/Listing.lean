import Lox.Chunk
import Lox.Text.Column

/-! # Listings

The readable form of code: a line for each instruction with its offset, its source line and its operands. A
listing is defined for any bytes, well formed or not. -/

namespace Lox

namespace Chunk

/-- The line column of a listing: a bar where the line is that of the byte before, a question mark where the
    table has no entry. -/
def lineColumn (chunk : Chunk) (offset : Nat) : String :=
  let line := chunk.line? offset
  if 0 < offset ∧ line = chunk.line? (offset - 1) then "   | "
  else match line with
    | some line => Text.padded 4 line.toNat ++ " "
    | none => "   ? "

/-- An instruction with its operands. -/
def instructionText (chunk : Chunk) (offset : Nat) (instruction : Instruction) : String :=
  let named (operand : Nat) : String :=
    Text.alignLeft 16 instruction.opcode.mnemonic ++ " " ++ Text.padded 4 operand
  match instruction with
  | .constant index | .getGlobal index | .defineGlobal index | .setGlobal index =>
    match chunk.constant? index with
    | some constant => named index.toNat ++ " '" ++ constant.text ++ "'"
    | none => named index.toNat ++ " <invalid constant>"
  | .getLocal operand | .setLocal operand | .call operand => named operand.toNat
  | .jump distance | .jumpIfFalse distance | .loop distance =>
    match instruction.target? offset with
    | some target => named distance.toNat ++ " -> " ++ toString target
    | none => named distance.toNat ++ " -> ?"
  | _ => instruction.opcode.mnemonic

/-- The listing of what stands at `offset`, without a line break, and the offset at which
    the listing goes on. -/
def listAt (chunk : Chunk) (offset : Nat) : String × Nat :=
  let start := Text.zeroPadded 4 offset ++ " " ++ chunk.lineColumn offset
  match Instruction.read chunk.code offset with
  | .instruction instruction =>
    (start ++ chunk.instructionText offset instruction, offset + instruction.size)
  | .unknown byte => (start ++ "Unknown opcode " ++ toString byte.toNat, offset + 1)
  | .truncated op => (start ++ Text.alignLeft 16 op.mnemonic ++ " <truncated>", chunk.size)
  | .pastEnd => (start ++ "<end of chunk>", offset + 1)

/-- The listing of what stands at an offset of 64 bits, and the offset at which the listing goes on; `none`
    where that offset needs more than 64 bits. -/
def listAt? (chunk : Chunk) (offset : UInt64) : Option (String × UInt64) :=
  let (line, next) := chunk.listAt offset.toNat
  if next < UInt64.size then some (line, UInt64.ofNat next) else none

/-- The offsets of the lines of a listing from `offset` on, after those in `found`, at most `count` more. -/
def listingOffsetsFrom (chunk : Chunk) (offset : Nat) (found : Array Nat) : (count : Nat) → Array Nat
  | 0 => found
  | count + 1 =>
    if offset < chunk.size then chunk.listingOffsetsFrom (chunk.listAt offset).2 (found.push offset) count
    else found

/-- The offsets of the lines of a listing. Each line stands for at least one byte, so there are no more
    lines than bytes. -/
def listingOffsets (chunk : Chunk) : List Nat := (chunk.listingOffsetsFrom 0 #[] chunk.size).toList

/-- The listing of a chunk under a title. -/
def list (chunk : Chunk) (title : String) : String :=
  chunk.listingOffsets.foldl (fun listing offset => listing ++ (chunk.listAt offset).1 ++ "\n")
    ("== " ++ title ++ " ==\n")

end Chunk

namespace Function

/-- The listing of one function. -/
def list (function : Function) : String := function.chunk.list function.title

/-- The listing of a function and of every function inside it, with an empty line between two. -/
def listAll (function : Function) : String := "\n".intercalate (function.all.map Function.list)

end Function

end Lox
