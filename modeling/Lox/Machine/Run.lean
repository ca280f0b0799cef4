import Lox.Listing
import Lox.Log
import Lox.Machine.Step

/-! # Runs

A run of a script goes on step by step until the script returns or a fault stops it; the error is then
reported to the sink. Runs have fuel, since a program need not end: `none` means that the fuel was used up
before the run ended. A run can be watched, which notes the stack and the instruction before each step and
changes nothing else. -/

namespace Lox

namespace Machine

/-- How far a run has come. -/
inductive Progress where
  | running (machine : Machine)
  | done (machine : Machine)
  | failed (machine : Machine) (fault : Fault)

/-- Goes on for at most `fuel` steps. -/
def advance (hosts : Hosts) (m : Machine) : (fuel : Nat) → Progress
  | 0 => .running m
  | fuel + 1 =>
    match step hosts m with
    | .next m => advance hosts m fuel
    | .done m => .done m
    | .fault m fault => .failed m fault

/-- What is noted before a step, unless the limit of steps is reached: the stack and the instruction. -/
def observe (m : Machine) : List Log.Record :=
  match m.limits.maxSteps.filter (· ≤ m.steps), m.frames with
  | none, frame :: _ =>
    let stack := m.stack.foldl (fun text value => text ++ "[ " ++ value.text ++ " ]") ""
    [⟨.trace, "          " ++ stack⟩, ⟨.trace, (frame.function.chunk.listAt frame.ip).1⟩]
  | _, _ => []

/-- Goes on for at most `fuel` steps and adds what is noted before each to `notes`. -/
def watch (hosts : Hosts) (m : Machine) (notes : Array Log.Record) : (fuel : Nat) → Progress × Array Log.Record
  | 0 => (.running m, notes)
  | fuel + 1 =>
    let notes := notes ++ m.observe
    match step hosts m with
    | .next m => watch hosts m notes fuel
    | .done m => (.done m, notes)
    | .fault m fault => (.failed m fault, notes)

/-- Begins a run of a script as a new object. -/
def start (m : Machine) (script : Function) : Progress :=
  let id : ObjectId := ⟨m.nextOrigin, []⟩
  let m := { m.reset with nextOrigin := m.nextOrigin + 1 }.push (.function id script)
  match m.callFunction id script 0 with
  | .next m => .running m
  | .done m => .done m
  | .fault m fault => .failed m fault

/-- Writes a line to the sink, and notes a failure to do so. -/
def report (m : Machine) (text : String) : List Log.Record × Machine :=
  let (placed, sink) := m.sink.write (text ++ "\n")
  (if placed then [] else [⟨.warn, "failed to write diagnostic: " ++ Sink.full⟩], { m with sink })

/-- What comes of a run. -/
structure Outcome where
  machine : Machine
  result : Except RuntimeError Unit
  log : List Log.Record

/-- Ends a run that a fault has stopped: the error is reported and the machine is made ready
    for the next run. -/
def fail (m : Machine) (fault : Fault) : Outcome :=
  let error : RuntimeError := ⟨fault, m.trace⟩
  let (notes, m) := m.report error.text
  { machine := m.reset
    result := .error error
    log := ⟨.debug, "runtime error: " ++ fault.message⟩ :: notes }

/-- What comes of a run that has come so far; `none` if it goes on. -/
def Progress.outcome? : Progress → Option Outcome
  | running _ => none
  | done m => some { machine := m, result := .ok (), log := [] }
  | failed m fault => some (m.fail fault)

/-- Runs a script. -/
def run (hosts : Hosts) (fuel : Nat) (m : Machine) (script : Function) : Option Outcome :=
  match m.start script with
  | .running m => (advance hosts m fuel).outcome?
  | ended => ended.outcome?

/-- Runs a script and notes every step. -/
def runWatched (hosts : Hosts) (fuel : Nat) (m : Machine) (script : Function) : Option Outcome :=
  match m.start script with
  | .running m =>
    let (progress, notes) := watch hosts m #[] fuel
    progress.outcome?.map fun outcome => { outcome with log := notes.toList ++ outcome.log }
  | ended => ended.outcome?

end Machine

end Lox
