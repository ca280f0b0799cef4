/-! # Diagnostics

What the compiler reports about a source text: the cause, the line, and the place among the tokens. -/

namespace Lox

namespace Diagnostic

/-- A word or phrase that the grammar asks for at some place. -/
inductive Expectation where
  | expression
  | closeGroup
  | closeArguments
  | functionName
  | openParameters
  | parameterName
  | closeParameters
  | openBody
  | variableName
  | endVariable
  | closeBlock
  | endPrint
  | endExpression
  | endReturn
  | openIf
  | openWhile
  | openFor
  | closeCondition
  | endCondition
  | closeClauses
deriving DecidableEq, Repr

/-- What is expected, in words. -/
def Expectation.text : Expectation → String
  | expression => "expression"
  | closeGroup => "')' after expression"
  | closeArguments => "')' after arguments"
  | functionName => "function name"
  | openParameters => "'(' after function name"
  | parameterName => "parameter name"
  | closeParameters => "')' after parameters"
  | openBody => "'\x7b' before function body"
  | variableName => "variable name"
  | endVariable => "';' after variable declaration"
  | closeBlock => "'\x7d' after block"
  | endPrint => "';' after value"
  | endExpression => "';' after expression"
  | endReturn => "';' after return value"
  | openIf => "'(' after 'if'"
  | openWhile => "'(' after 'while'"
  | openFor => "'(' after 'for'"
  | closeCondition => "')' after condition"
  | endCondition => "';' after loop condition"
  | closeClauses => "')' after for clauses"

/-- Why a source text is refused. -/
inductive Cause where
  /-- The scanner found no token. -/
  | lexical (complaint : String)
  | expected (what : Expectation)
  | invalidTarget
  | tooManyConstants
  | jumpTooFar
  | loopTooLarge
  /-- A local is mentioned in its own initializer. -/
  | ownInitializer (name : String)
  | tooManyLocals
  /-- A scope declares the same name twice. -/
  | duplicate (name : String)
  | tooManyArguments
  | tooManyParameters
  | returnFromScript
deriving DecidableEq, Repr

/-- The wording of a cause. -/
def Cause.message : Cause → String
  | lexical complaint => complaint
  | expected what => "Expect " ++ what.text ++ "."
  | invalidTarget => "Invalid assignment target."
  | tooManyConstants => "Too many constants in one chunk."
  | jumpTooFar => "Too much code to jump over."
  | loopTooLarge => "Loop body too large."
  | ownInitializer name => "Can't read local variable " ++ name ++ " in it's own initializer."
  | tooManyLocals => "Too many local variables in function."
  | duplicate name => "Already a variable called " ++ name ++ " in this scope."
  | tooManyArguments => "Can't have more than 255 arguments."
  | tooManyParameters => "Can't have more than 255 parameters."
  | returnFromScript => "Can't return from top-level code."

/-- Where among the tokens a diagnostic belongs. -/
inductive Place where
  /-- At no token, since the scanner found none. -/
  | unknown
  | atEnd
  | at (lexeme : String)
deriving DecidableEq, Repr

/-- The place in words, with a blank before it. -/
def Place.text : Place → String
  | unknown => ""
  | atEnd => " at end"
  | .at lexeme => " at '" ++ lexeme ++ "'"

end Diagnostic

/-- A reason for which a source text is refused, with its line and place. -/
structure Diagnostic where
  line : UInt32
  place : Diagnostic.Place
  cause : Diagnostic.Cause
deriving DecidableEq, Repr

namespace Diagnostic

/-- A diagnostic as one line of text. -/
def text (diagnostic : Diagnostic) : String :=
  "[line " ++ toString diagnostic.line.toNat ++ " error" ++ diagnostic.place.text ++ "]: " ++
    diagnostic.cause.message

/-- Diagnostics, one a line. -/
def render (diagnostics : List Diagnostic) : String := "\n".intercalate (diagnostics.map text)

end Diagnostic

end Lox
