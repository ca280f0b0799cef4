import Lox.Text.Column
import Lox.Token
import Lox.Token.Scan
import Lox.Token.Listing
import Lox.Number
import Lox.Number.Nearest
import Lox.Number.Shortest
import Lox.Opcode
import Lox.Instruction
import Lox.Function
import Lox.Chunk
import Lox.Listing
import Lox.Diagnostic
import Lox.Compiler
import Lox.Compiler.Emit
import Lox.Compiler.Variable
import Lox.Compiler.Expression
import Lox.Compiler.Statement
import Lox.Compile
import Lox.Verify
import Lox.Image.Varint
import Lox.Image.Encode
import Lox.Image.Decode
import Lox.Image
import Lox.Value
import Lox.Globals
import Lox.Sink
import Lox.Fault
import Lox.Machine
import Lox.Machine.Step
import Lox.Log
import Lox.Machine.Run
import Lox.Session
import Lox.Command.Path
import Lox.Command.Files
import Lox.Command.Options
import Lox.Command.Terminal
import Lox.Command.World
import Lox.Command
import Lox.Main
import Lox.Proofs.Tree
import Lox.Proofs.Code
import Lox.Proofs.Grammar
import Lox.Proofs.Rules
import Lox.Proofs.Precedence
import Lox.Proofs.Compilation.Stable
import Lox.Proofs.Compilation.Recovery
import Lox.Proofs.Compilation.Point
import Lox.Proofs.Compilation.Writing
import Lox.Proofs.Compilation.Naming
import Lox.Proofs.Compilation.Expression
import Lox.Proofs.Compilation.Statement
import Lox.Proofs.Compilation.Variable
import Lox.Proofs.Compilation.For
import Lox.Proofs.Compilation.Block
import Lox.Proofs.Compilation.Function
import Lox.Proofs.Compilation.Program
import Lox.Proofs.Flow
import Lox.Proofs.Flow.Statement
import Lox.Proofs.Flow.Function
import Lox.Proofs.Machine.Discipline
import Lox.Proofs.Machine.Locality
import Lox.Proofs.Machine.Calls
import Lox.Proofs.Image
import Lox.Proofs.Session
import Lox.Proofs.Meaning
import Lox.Proofs.Simulation.Follows
import Lox.Proofs.Simulation.Library
import Lox.Proofs.Simulation.Showing
import Lox.Proofs.Simulation.Expression
import Lox.Proofs.Simulation.Scope
import Lox.Proofs.Simulation.Statement
import Lox.Proofs.Simulation.Call
import Lox.Proofs.Image.RoundTrip
import Lox.Proofs.Image.Words
import Lox.Proofs.Image.Reading
import Lox.Proofs.Image.Canonical
import Lox.Proofs.Image.Truncation
import Lox.Proofs.Machine.Places
import Lox.Proofs.Verification
import Lox.Proofs.Verification.Reading
import Lox.Proofs.Verification.Compiled
import Lox.Proofs.Verification.Lines
import Lox.Proofs.Verification.Sweep
import Lox.Proofs.Verification.Decoding
import Lox.Proofs.Verification.WellFormed
import Lox.Proofs.Simulation.Archive
import Lox.Proofs.Preservation
import Lox.Proofs.Machine.Limits
import Lox.Proofs.Tiling
import Lox.Proofs.Likeness
import Lox.Proofs.Machine.Likeness
import Lox.Proofs.Image.Running
import Lox.Proofs.Command
import Lox.Proofs.Unambiguity
import Lox.Proofs.Sequence.Graft
import Lox.Proofs.Sequence.Scan
import Lox.Proofs.Sequence.Program
import Lox.Proofs.Sequence.Embedding
import Lox.Proofs.Sequence.Session
import Lox.Proofs.Sinks
import Lox.Proofs.Machine.Termination
import Lox.Proofs.Machine.Effects
import Lox.Proofs.Machine.Trace
import Lox.Proofs.Machine.Containment
import Lox.Proofs.Backtrace
import Lox.Proofs.Loopless
import Lox.Proofs.Compilation.Order
import Lox.Proofs.Compilation.Lockstep
import Lox.Proofs.Compilation.Spacing
import Lox.Proofs.Compilation.Watching
import Lox.Proofs.Compilation.Termination
import Lox.Proofs.Renaming.Tree
import Lox.Proofs.Renaming.Code
import Lox.Proofs.Renaming
import Lox.Proofs.Compilation.Balance
import Lox.Proofs.Chunk
import Lox.Proofs.LineTable
import Lox.Proofs.Linearity
import Lox.Proofs.Tiling.Joining
