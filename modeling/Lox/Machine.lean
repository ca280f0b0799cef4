import Lox.Chunk
import Lox.Fault
import Lox.Globals
import Lox.Sink

/-! # The machine

The state of the machine that runs compiled functions: a stack of values, the active calls, the globals and
the sink for output. Globals and output last from one run to the next; the stack and the calls do not. -/

namespace Lox

/-- What the routines of the host do with their arguments: a value, or a complaint. -/
abbrev Host := (routine : String) → (arguments : Array Value) → Except String Value

/-- The host that has a clock and nothing else. -/
def Host.standard (now : Float) : Host := fun routine _ =>
  if routine == "clock" then .ok (.number now) else .error ("unknown routine " ++ routine)

/-- The host in the course of a run. A routine may read a clock or keep something in mind from one call to the
    next, so each step of a run has a host of its own. -/
structure Hosts where
  /-- The host as the step of this number finds it. -/
  during : (step : Nat) → Host

/-- A host whose routines do the same at every step. -/
def Host.always (host : Host) : Hosts := ⟨fun _ => host⟩

/-- The standard host with a clock that goes on during the run. -/
def Hosts.clock (time : (step : Nat) → Float) : Hosts := ⟨fun step => .standard (time step)⟩

instance : Coe Host Hosts := ⟨Host.always⟩

/-- How far a run may go. -/
structure Limits where
  /-- The largest number of active calls, the script included. -/
  maxFrames : Nat := 64
  /-- The largest number of instructions of a run. -/
  maxSteps : Option Nat := none
deriving DecidableEq, Repr

/-- An active call. -/
structure Frame where
  id : ObjectId
  function : Function
  /-- The offset of the next instruction. -/
  ip : Nat
  /-- The stack index of the function that was called; its locals are counted from there. -/
  slots : Nat

namespace Frame

/-- The value of a constant of the running function. -/
def constant? (frame : Frame) (index : UInt8) : Option Value :=
  (frame.function.chunk.constant? index).map (Constant.load (frame.id.child index.toNat))

/-- The name of a global by the index of its constant. -/
def name (frame : Frame) (index : UInt8) : Except Fault String :=
  match frame.function.chunk.constant? index with
  | some (.string name) => .ok name
  | some constant => .error (.nameExpected constant.typeName)
  | none => .error (.constantRange index)

/-- What a trace shows of a call: the line of the last byte that was read. -/
def entry (frame : Frame) : TraceEntry :=
  ⟨(frame.function.chunk.line? (frame.ip - 1)).getD 0, frame.function.frameName⟩

end Frame

/-- The state of the machine. -/
structure Machine where
  stack : Array Value := #[]
  /-- The active calls, innermost first. -/
  frames : List Frame := []
  globals : Globals := {}
  limits : Limits := {}
  /-- How many instructions the run has begun. -/
  steps : Nat := 0
  sink : Sink := {}
  /-- The origin of the next script or routine to be brought in. -/
  nextOrigin : Nat := 0

namespace Machine

/-- Puts a value on the stack. -/
def push (m : Machine) (value : Value) : Machine := { m with stack := m.stack.push value }

/-- The value at a distance below the top of the stack. -/
def peek? (m : Machine) (distance : Nat) : Option Value :=
  if distance < m.stack.size then m.stack[m.stack.size - 1 - distance]? else none

/-- Empties the stack and ends all calls. -/
def reset (m : Machine) : Machine := { m with stack := #[], frames := [], steps := 0 }

/-- The trace of the active calls. -/
def trace (m : Machine) : List TraceEntry := m.frames.map Frame.entry

/-- Makes a routine of the host a global. -/
def defineNative (m : Machine) (name routine : String) : Machine :=
  { m with
    globals := m.globals.define name (.native ⟨m.nextOrigin, []⟩ ⟨name, routine⟩)
    nextOrigin := m.nextOrigin + 1 }

/-- A machine that has not run anything, with the clock as its only global. -/
def new (limits : Limits) (sink : Sink) : Machine :=
  { limits, sink : Machine }.defineNative "clock" "clock"

end Machine

end Lox
