import Lox.Compiler.Statement
import Lox.Token.Scan

/-! # Compilation

A source text is compiled to its script, or refused with all diagnostics in the order of the source. -/

namespace Lox

/-- What a compilation gives. -/
structure Compilation where
  /-- The script and its functions as far as each was completed while there was no diagnostic,
      inner ones first. -/
  finished : List Function
  /-- The script, or the reasons why there is none. -/
  result : Except (List Diagnostic) Function

/-- Compiles tokens. Every level of nesting and every round of a loop takes a token or ends, so fuel of twice
    their number is enough. -/
def compileTokens (tokens : List Token) : Compilation :=
  let fuel := 2 * tokens.length + 4
  let (script, c) := ((Compiler.start tokens).accept.program fuel fuel).finish
  { finished := c.finished.toList
    result := if c.diagnostics.isEmpty then .ok script else .error c.diagnostics.toList }

/-- Compiles a source text. -/
def compile (source : String) : Except (List Diagnostic) Function := (compileTokens (Token.scan source)).result

end Lox
