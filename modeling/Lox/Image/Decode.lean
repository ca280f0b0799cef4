import Lox.Function
import Lox.Image.Varint

/-! # Reading images

The bytes of a function are read from left to right, and the first problem ends the reading. -/

namespace Lox.Image.Reader

/-- Reads the given number of bytes. -/
def take (count : Nat) : Reader (List UInt8) := fun input =>
  let (bytes, rest) := input.splitAt count
  if bytes.length = count then .ok (bytes, rest) else .error .endOfBuffer

/-- Reads the given number of items, after those in `found`, which are in reverse. -/
def many {α : Type} (item : Reader α) (count : Nat) (found : List α) (input : List UInt8) :
    Except Problem (List α × List UInt8) :=
  match count with
  | 0 => .ok (found.reverse, input)
  | count + 1 =>
    match item input with
    | .ok (a, rest) => many item count (a :: found) rest
    | .error problem => .error problem

/-- Reads a text after the number of its bytes. -/
def text : Reader String := fun input => do
  let (count, input) ← varint64 input
  let (bytes, input) ← take count input
  match String.fromUTF8? (ByteArray.mk bytes.toArray) with
  | some text => .ok (text, input)
  | none => .error .badText

/-- Reads an optional name. -/
def name : Reader (Option String) := fun input => do
  let (present, input) ← byte input
  if present = 0 then .ok (none, input)
  else if present = 1 then
    let (name, input) ← text input
    .ok (some name, input)
  else .error .badOption

/-- The number with the given bytes, the lowest first. -/
def bitsOf (bytes : List UInt8) : UInt64 :=
  UInt64.ofNat (bytes.foldr (fun b high => b.toNat + 256 * high) 0)

/-- Reads a constant, with `function` to read the functions among them. -/
def constant (function : Reader Function) : Reader Constant := fun input => do
  let (tag, input) ← varint32 input
  match tag with
  | 0 => .ok (.nil, input)
  | 1 =>
    let (b, input) ← byte input
    if b = 0 then .ok (.bool false, input)
    else if b = 1 then .ok (.bool true, input)
    else .error .badBool
  | 2 =>
    let (bytes, input) ← take 8 input
    .ok (.number (bitsOf bytes), input)
  | 3 =>
    let (kind, input) ← varint32 input
    match kind with
    | 0 =>
      let (s, input) ← text input
      .ok (.string s, input)
    | 1 =>
      let (f, input) ← function input
      .ok (.function f, input)
    | _ => .error .badTag
  | _ => .error .badTag

/-- Reads a function with at most `depth` levels of functions inside it. -/
def function : (depth : Nat) → Reader Function
  | 0 => fun _ => .error .endOfBuffer
  | depth + 1 => fun input => do
    let (arity, input) ← byte input
    let (size, input) ← varint64 input
    let (code, input) ← take size input
    let (size, input) ← varint64 input
    let (lines, input) ← many varint32 size [] input
    let (size, input) ← varint64 input
    let (constants, input) ← many (constant (function depth)) size [] input
    let (name, input) ← name input
    let chunk : Chunk := { code := code.toArray, lines := (lines.map UInt32.ofNat).toArray, constants }
    .ok ({ arity, chunk, name }, input)

end Lox.Image.Reader
