import Lox.Chunk
import Lox.Diagnostic
import Lox.Token

/-! # The state of a compilation

Compilation reads the tokens once, from left to right, with one token of lookahead, and writes code as it
goes. This module has the state, the movement over the tokens, and the reporting of diagnostics: after one is
reported, the compiler is panicking, and further ones are dropped until it has reached the next statement. -/

namespace Lox

/-- A local variable that is in scope. -/
structure Local where
  name : String
  /-- The depth of its scope; `none` while its own initializer is being compiled. -/
  depth : Option Nat
deriving DecidableEq, Repr

namespace Local

/-- Whether the scope of a local is at least `depth` deep. A local whose initializer is being compiled
    counts as the deepest. -/
def isWithin (depth : Nat) (loc : Local) : Bool :=
  match loc.depth with
  | none => true
  | some d => depth ≤ d

/-- The innermost local with the given name, with its slot. -/
def resolve? (name : String) : List Local → Option (Nat × Local)
  | [] => none
  | loc :: locals => if loc.name = name then some (locals.length, loc) else resolve? name locals

end Local

/-- The function that is being compiled. -/
structure Body where
  function : Function
  /-- Whether it is the script, which has no caller to return to. -/
  isScript : Bool
  /-- The locals in scope, innermost first. A local's slot is the number of locals after it; the last is the
      reserved slot 0, which holds the function that is called. -/
  locals : List Local
  /-- How many scopes are open; declarations outside all scopes make globals. -/
  depth : Nat

/-- A function of which nothing is compiled yet. -/
def Body.start (isScript : Bool) (name : Option String) : Body :=
  { function := { chunk := {}, name }, isScript, locals := [⟨"", some 0⟩], depth := 0 }

/-- The state of a compilation. -/
structure Compiler where
  /-- The last token that was accepted. -/
  previous : Token
  /-- The token at hand. -/
  current : Token
  /-- The tokens after the one at hand. -/
  rest : List Token
  /-- Whether diagnostics are dropped. -/
  panicking : Bool
  diagnostics : Array Diagnostic
  body : Body
  /-- The functions completed while there was no diagnostic, in the order of their ends. -/
  finished : Array Function

namespace Compiler

/-- The state before the first of the given tokens is at hand. -/
def start (tokens : List Token) : Compiler :=
  { previous := .unread
    current := .unread
    rest := tokens
    panicking := false
    diagnostics := #[]
    body := .start true none
    finished := #[] }

/-! ### Reporting -/

/-- Reports a diagnostic at a token, unless the compiler is panicking. -/
def reportAt (c : Compiler) (token : Token) (cause : Diagnostic.Cause) : Compiler :=
  if c.panicking then c
  else
    let place := match token.kind with
      | .endOfInput => .atEnd
      | .error => .unknown
      | _ => .at token.lexeme
    { c with panicking := true, diagnostics := c.diagnostics.push ⟨token.line, place, cause⟩ }

/-- Reports a diagnostic at the last accepted token. -/
def report (c : Compiler) (cause : Diagnostic.Cause) : Compiler := c.reportAt c.previous cause

/-- Reports a diagnostic at the token at hand. -/
def reportHere (c : Compiler) (cause : Diagnostic.Cause) : Compiler := c.reportAt c.current cause

/-! ### Moving over the tokens -/

/-- Takes the next token to hand and reports the lexical errors before it. The end of the
    input stays at hand. -/
def shift (c : Compiler) : List Token → Compiler
  | [] => { c with rest := [] }
  | token :: tokens =>
    if token.kind = .error then (c.reportAt token (.lexical token.lexeme)).shift tokens
    else { c with current := token, rest := tokens }

/-- Accepts the token at hand. -/
def accept (c : Compiler) : Compiler := { c with previous := c.current }.shift c.rest

/-- Whether the token at hand has the given kind. -/
def sees (c : Compiler) (kind : Token.Kind) : Bool := c.current.kind = kind

/-- Accepts the token at hand if it has the given kind, and otherwise reports what was expected. -/
def expect (c : Compiler) (kind : Token.Kind) (what : Diagnostic.Expectation) : Compiler :=
  if c.sees kind then c.accept else c.reportHere (.expected what)

/-- Accepts tokens up to the next statement: until a semicolon has been accepted or a word is at hand that
    starts a statement. -/
def skipStatement (c : Compiler) : Nat → Compiler
  | 0 => c
  | fuel + 1 =>
    if c.sees .endOfInput || c.previous.kind = .semicolon || c.current.kind.startsStatement then c
    else c.accept.skipStatement fuel

/-- Ends a panic at the next statement. -/
def recover (c : Compiler) (fuel : Nat) : Compiler :=
  if c.panicking then { c with panicking := false }.skipStatement fuel else c

end Compiler

end Lox
