import Lox.Machine

/-! # One instruction

What the machine does in one step. Each step reads one instruction of the innermost call and performs it. The
code is not trusted: whatever the bytes are, a step gives the next state, the end of the run or a fault. -/

namespace Lox

namespace Machine

/-- What comes of a step. -/
inductive Step where
  | next (machine : Machine)
  /-- The script has returned. -/
  | done (machine : Machine)
  /-- The run cannot go on; the machine shows the active calls. -/
  | fault (machine : Machine) (fault : Fault)

/-! ### Operators -/

/-- A function of two numbers. -/
def numeric (f : Float → Float → Value) (a b : Value) : Except Fault Value :=
  match a, b with
  | .number x, .number y => .ok (f x y)
  | _, _ => .error .operandsNotNumbers

/-- The sum of two numbers or the concatenation of two strings. -/
def add (a b : Value) : Except Fault Value :=
  match a, b with
  | .number x, .number y => .ok (.number (x + y))
  | .string s, .string t => .ok (.string (s ++ t))
  | _, _ => .error .operandsNotAddable

/-- The negative of a number. -/
def negate (a : Value) : Except Fault Value :=
  match a with
  | .number x => .ok (.number (-x))
  | _ => .error .operandNotNumber

/-- Replaces the top of the stack by a function of it. -/
def unary (m : Machine) (f : Value → Except Fault Value) : Step :=
  match m.peek? 0 with
  | none => .fault m .stackUnderflow
  | some a =>
    match f a with
    | .ok value => .next { m with stack := m.stack.pop.push value }
    | .error fault => .fault m fault

/-- Replaces the two top values of the stack by a function of them. -/
def binary (m : Machine) (f : Value → Value → Except Fault Value) : Step :=
  match m.peek? 1, m.peek? 0 with
  | some a, some b =>
    match f a b with
    | .ok value => .next { m with stack := m.stack.pop.pop.push value }
    | .error fault => .fault m fault
  | _, _ => .fault m .stackUnderflow

/-! ### Calls -/

/-- Begins a call of a function whose arguments are on the stack. -/
def callFunction (m : Machine) (id : ObjectId) (function : Function) (count : UInt8) : Step :=
  if count ≠ function.arity then .fault m (.arity function.arity count)
  else if m.limits.maxFrames ≤ m.frames.length then .fault m .stackOverflow
  else if m.stack.size < count.toNat + 1 then .fault m .stackUnderflow
  else
    let slots := m.stack.size - (count.toNat + 1)
    .next { m with frames := { id, function, ip := 0, slots } :: m.frames }

/-- Calls a routine of the host with the arguments on the stack, and puts its result in the
    place of the call. -/
def callNative (host : Host) (m : Machine) (native : Native) (count : UInt8) : Step :=
  if m.stack.size < count.toNat then .fault m .stackUnderflow
  else
    let first := m.stack.size - count.toNat
    match host native.routine (m.stack.extract first m.stack.size) with
    | .ok value => .next { m with stack := (m.stack.shrink (first - 1)).push value }
    | .error complaint => .fault m (.native complaint)

/-- Calls the value below the arguments. -/
def call (host : Host) (m : Machine) (count : UInt8) : Step :=
  match m.peek? count.toNat with
  | none => .fault m .stackUnderflow
  | some (.function id function) => m.callFunction id function count
  | some (.native _ native) => callNative host m native count
  | some _ => .fault m .notCallable

/-- Ends the innermost call with the top of the stack as its result. -/
def leave (m : Machine) : Step :=
  match m.peek? 0, m.frames with
  | none, _ => .fault m .stackUnderflow
  | some _, [] => .fault m .noFrame
  | some _, [frame] => .done { m with stack := m.stack.pop.shrink frame.slots, frames := [] }
  | some result, frame :: callers =>
    .next { m with stack := (m.stack.pop.shrink frame.slots).push result, frames := callers }

/-! ### Instructions -/

/-- Lets the innermost call go on at `ip`. -/
def goTo (m : Machine) (frame : Frame) (ip : Nat) : Machine :=
  { m with frames := { frame with ip } :: m.frames.tail }

/-- Performs an instruction of the innermost call, which has the state `frame` after the
    instruction was read. -/
def perform (host : Host) (m : Machine) (frame : Frame) : Instruction → Step
  | .constant index =>
    match frame.constant? index with
    | some value => .next (m.push value)
    | none => .fault m (.constantRange index)
  | .nil => .next (m.push .nil)
  | .trueValue => .next (m.push (.bool true))
  | .falseValue => .next (m.push (.bool false))
  | .pop => if m.stack.isEmpty then .fault m .stackUnderflow else .next { m with stack := m.stack.pop }
  | .getLocal slot =>
    match m.stack[frame.slots + slot.toNat]? with
    | some value => .next (m.push value)
    | none => .fault m (.localRange slot)
  | .setLocal slot =>
    if frame.slots + slot.toNat < m.stack.size then
      match m.peek? 0 with
      | some value => .next { m with stack := m.stack.setIfInBounds (frame.slots + slot.toNat) value }
      | none => .fault m .stackUnderflow
    else .fault m (.localRange slot)
  | .getGlobal index =>
    match frame.name index with
    | .error fault => .fault m fault
    | .ok name =>
      match m.globals.get? name with
      | some value => .next (m.push value)
      | none => .fault m (.undefinedVariable name)
  | .defineGlobal index =>
    match frame.name index with
    | .error fault => .fault m fault
    | .ok name =>
      match m.peek? 0 with
      | some value => .next { m with stack := m.stack.pop, globals := m.globals.define name value }
      | none => .fault m .stackUnderflow
  | .setGlobal index =>
    match frame.name index with
    | .error fault => .fault m fault
    | .ok name =>
      match m.peek? 0 with
      | none => .fault m .stackUnderflow
      | some value =>
        match m.globals.assign? name value with
        | some globals => .next { m with globals }
        | none => .fault m (.undefinedVariable name)
  | .equal => m.binary fun a b => .ok (.bool (a.equal b))
  | .greater => m.binary (numeric fun x y => .bool (y < x))
  | .less => m.binary (numeric fun x y => .bool (x < y))
  | .add => m.binary add
  | .subtract => m.binary (numeric fun x y => .number (x - y))
  | .multiply => m.binary (numeric fun x y => .number (x * y))
  | .divide => m.binary (numeric fun x y => .number (x / y))
  | .logicalNot => m.unary fun a => .ok (.bool a.isFalsy)
  | .negate => m.unary negate
  | .print =>
    match m.peek? 0 with
    | none => .fault m .stackUnderflow
    | some value =>
      match m.sink.write (value.text ++ "\n") with
      | (true, sink) => .next { m with stack := m.stack.pop, sink }
      | (false, sink) => .fault { m with sink } (.output Sink.full)
  | .jump distance => .next (m.goTo frame (frame.ip + distance.toNat))
  | .jumpIfFalse distance =>
    match m.peek? 0 with
    | none => .fault m .stackUnderflow
    | some value => .next (if value.isFalsy then m.goTo frame (frame.ip + distance.toNat) else m)
  | .loop distance =>
    if distance.toNat ≤ frame.ip then .next (m.goTo frame (frame.ip - distance.toNat))
    else .fault m .loopBeforeStart
  | .call count => call host m count
  | .ret => m.leave

/-- One step: within the limit of steps, reads the next instruction of the innermost call and performs
    it. A trace shows the line of the last byte that was read, so a fault of reading moves past the
    byte that was wanted. -/
def step (hosts : Hosts) (m : Machine) : Step :=
  match m.limits.maxSteps.filter (· ≤ m.steps) with
  | some limit => .fault m (.stepLimit limit)
  | none =>
    match m.frames with
    | [] => .fault m .noFrame
    | frame :: _ =>
      match Instruction.read frame.function.chunk.code frame.ip with
      | .instruction instruction =>
        let frame := { frame with ip := frame.ip + instruction.size }
        perform (hosts.during m.steps) { m with steps := m.steps + 1, frames := frame :: m.frames.tail } frame
          instruction
      | .unknown byte => .fault (m.goTo frame (frame.ip + 1)) (.unknownOpcode byte)
      | .truncated _ => .fault (m.goTo frame (frame.function.chunk.size + 1)) .pastEnd
      | .pastEnd => .fault (m.goTo frame (frame.ip + 1)) .pastEnd

end Machine

end Lox
