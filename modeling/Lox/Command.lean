import Lox.Command.Options
import Lox.Command.Path
import Lox.Command.Terminal
import Lox.Session
import Lox.Token.Listing

/-! # The command

The command runs a source file or an image, lists tokens or code, writes images, or reads lines and runs them
in turn. It works on any terminal. Programs run in rounds, before each of which their output is written out; a
bound on the number of rounds and lines makes every function total. -/

namespace Lox

namespace Command

/-- How the command ends. -/
inductive Exit where
  | success
  /-- The command line makes no sense. -/
  | usage
  /-- The source or image is refused. -/
  | badData
  /-- The program ended with a runtime error. -/
  | failure
  /-- A file or the input could not be read or written. -/
  | badFile
  /-- The bound on rounds was met. -/
  | unfinished
deriving DecidableEq, Repr

/-- The exit status. -/
def Exit.status : Exit → UInt8
  | success => 0
  | usage => 64
  | badData => 65
  | failure => 70
  | badFile => 74
  | unfinished => 70

/-- How many instructions are run in a round. -/
def roundSteps : Nat := 100000

/-- The complaint about bytes that are no text. -/
def notText : String := "stream did not contain valid UTF-8"

section

variable {m : Type → Type} [Monad m] (terminal : Terminal m)

/-- Complains and ends with the given status. -/
def refuse (exit : Exit) (complaint : String) : m Exit := do
  terminal.complain ("error: " ++ complaint ++ "\n")
  return exit

/-- Moves the output of a machine to the terminal. -/
def flush (machine : Machine) : m Machine := do
  terminal.write machine.sink.bytes
  return { machine with sink.bytes := .empty }

/-- Goes on with a run, and tells how it ended unless the bound on rounds is met first. -/
def proceed (progress : Machine.Progress) : (rounds : Nat) → m (Machine × Option (Except RuntimeError Unit))
  | 0 =>
    match progress with
    | .running machine | .done machine | .failed machine _ => return (machine, none)
  | rounds + 1 => do
    match progress with
    | .running machine =>
      let now ← terminal.now
      let machine ← flush terminal machine
      proceed (machine.advance (Host.standard now) roundSteps) rounds
    | .done machine => return (← flush terminal machine, some (.ok ()))
    | .failed machine fault =>
      let outcome := machine.fail fault
      return (← flush terminal outcome.machine, some outcome.result)

/-- Runs a script, after a listing if one is asked for. -/
def execute (options : Options) (machine : Machine) (script : Function) (rounds : Nat) :
    m (Machine × Option (Except RuntimeError Unit)) := do
  if options.disasm then terminal.print script.listAll
  proceed terminal (machine.start script) rounds

/-- Runs a script and ends. -/
def runScript (options : Options) (script : Function) (rounds : Nat) : m Exit := do
  match ← execute terminal options (.new options.limits {}) script rounds with
  | (_, some (.ok ())) => return .success
  | (_, some (.error _)) => return .failure
  | (_, none) => return .unfinished

/-- Lists the tokens of a source file, writes its image, or runs it. -/
def runSource (options : Options) (path : String) (rounds : Nat) : m Exit := do
  match ← terminal.readFile path with
  | .error problem => refuse terminal .badFile ("failed to read '" ++ path ++ "': " ++ problem.message)
  | .ok bytes =>
    match String.fromUTF8? bytes with
    | none => refuse terminal .badFile ("failed to read '" ++ path ++ "': " ++ notText)
    | some source =>
      if options.tokens then
        let listing : Token.Listing := { color := !options.noColor, lexemes := options.pretty }
        terminal.print (listing.render (Token.scan source))
        return .success
      else match compile source with
        | .error diagnostics =>
          terminal.print (Diagnostic.render diagnostics ++ "\n")
          return .badData
        | .ok script =>
          match options.emit with
          | none => runScript terminal options script rounds
          | some target =>
            match Image.encode script with
            | .error error => refuse terminal .badFile error.message
            | .ok image =>
              match ← terminal.writeFile target (ByteArray.mk image.toArray) with
              | .ok () => return .success
              | .error problem =>
                refuse terminal .badFile ("failed to write '" ++ target ++ "': " ++ problem.message)

/-- Runs an image. -/
def runImage (options : Options) (path : String) (rounds : Nat) : m Exit := do
  if options.tokens || options.emit.isSome then
    refuse terminal .usage "--tokens and --emit need a .lox source"
  else match ← terminal.readFile path with
    | .error problem => refuse terminal .badFile ("failed to read '" ++ path ++ "': " ++ problem.message)
    | .ok bytes =>
      match Image.decode bytes.toList with
      | .error error => refuse terminal .badData (path ++ ": " ++ error.message)
      | .ok script => runScript terminal options script rounds

/-- Reads lines and runs them in turn on one machine, up to the end of the input. Errors are reported and the
    next line is read. -/
def converse (options : Options) (machine : Machine) : (rounds : Nat) → m Exit
  | 0 => return .unfinished
  | rounds + 1 => do
    terminal.print "> "
    let line ← terminal.readLine
    if line.isEmpty then
      terminal.print "\n"
      return .success
    else match String.fromUTF8? line with
      | none => refuse terminal .badFile ("failed to read stdin: " ++ notText)
      | some source =>
        match compile source with
        | .error diagnostics =>
          terminal.print (Diagnostic.render diagnostics ++ "\n")
          converse options machine rounds
        | .ok script =>
          match ← execute terminal options machine script rounds with
          | (machine, some _) => converse options machine rounds
          | (_, none) => return .unfinished

/-- Does what the options ask for. -/
def run (options : Options) (rounds : Nat) : m Exit :=
  match options.script with
  | none =>
    if options.tokens || options.emit.isSome then
      refuse terminal .usage "--tokens and --emit need a SCRIPT"
    else converse terminal options (.new options.limits {}) rounds
  | some path =>
    match Path.extension? path with
    | some "lox" => runSource terminal options path rounds
    | some "loxc" => runImage terminal options path rounds
    | _ => refuse terminal .usage ("expected a .lox or .loxc file, got " ++ path)

end

end Command

end Lox
