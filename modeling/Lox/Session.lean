import Lox.Compile
import Lox.Image
import Lox.Machine.Run

/-! # Sessions

What one can ask of a machine, and what comes of it. Globals and output carry over from one
request to the next. -/

namespace Lox

namespace Session

/-- A request to a machine. -/
inductive Request where
  /-- Compile a source text and run it. -/
  | interpret (source : String)
  /-- Run a script as it is, verified or not. -/
  | run (script : Function)
  /-- Load an image and run its script. -/
  | load (image : List UInt8)
  /-- Compile a source text, pass it through an image, and run it. -/
  | roundTrip (source : String)
  /-- Make a routine of the host a global. -/
  | defineNative (name routine : String)

/-- Why a request fails. -/
inductive Failure where
  | compile (diagnostics : List Diagnostic)
  | image (error : Image.Error)
  | runtime (error : RuntimeError)

/-- What comes of a request. -/
structure Reply where
  machine : Machine
  result : Except Failure Unit
  log : List Log.Record

/-- The circumstances of a request: the host, the fuel of its run, and whether every step is noted. -/
structure Setting where
  host : Hosts
  fuel : Nat
  watched : Bool := false

/-- Runs a script after what was noted so far. -/
def run (setting : Setting) (m : Machine) (script : Function) (log : List Log.Record) : Option Reply :=
  let outcome? :=
    if setting.watched then m.runWatched setting.host setting.fuel script
    else m.run setting.host setting.fuel script
  outcome?.map fun outcome =>
    { machine := outcome.machine, result := outcome.result.mapError .runtime, log := log ++ outcome.log }

/-- The notes on the functions that a compilation completed. -/
def compilationLog (compilation : Compilation) : List Log.Record :=
  compilation.finished.map fun function => ⟨.debug, "compiled\n" ++ function.list⟩

/-- Compiles a source text and runs it. Diagnostics are reported to the sink. -/
def interpret (setting : Setting) (m : Machine) (source : String) : Option Reply :=
  let compilation := compileTokens (Token.scan source)
  let log := compilationLog compilation
  match compilation.result with
  | .ok script => run setting m script log
  | .error diagnostics =>
    let (notes, m) := m.report (Diagnostic.render diagnostics)
    some { machine := m, result := .error (.compile diagnostics), log := log ++ notes }

/-- Loads an image after what was noted so far, and runs its script. -/
def load (setting : Setting) (m : Machine) (image : List UInt8) (log : List Log.Record) : Option Reply :=
  match Image.decode image with
  | .error error => some { machine := m, result := .error (.image error), log }
  | .ok script =>
    run setting m script (log ++ [⟨.debug, "decoded image: " ++ toString image.length ++ " bytes"⟩])

/-- Compiles a source text, writes it to an image, loads the image and runs its script. Diagnostics are not
    reported to the sink. -/
def roundTrip (setting : Setting) (m : Machine) (source : String) : Option Reply :=
  let compilation := compileTokens (Token.scan source)
  let log := compilationLog compilation
  match compilation.result with
  | .error diagnostics => some { machine := m, result := .error (.compile diagnostics), log }
  | .ok script =>
    match Image.encode script with
    | .error error => some { machine := m, result := .error (.image error), log }
    | .ok image =>
      load setting m image (log ++ [⟨.debug, "encoded image: " ++ toString image.length ++ " bytes"⟩])

/-- Answers a request; `none` if its run does not end within the fuel. -/
def answer (setting : Setting) (m : Machine) : Request → Option Reply
  | .interpret source => interpret setting m source
  | .run script => run setting m script []
  | .load image => load setting m image []
  | .roundTrip source => roundTrip setting m source
  | .defineNative name routine => some { machine := m.defineNative name routine, result := .ok (), log := [] }

end Session

end Lox
