import Lox.Compiler.Expression

/-! # Statements and declarations

As for expressions, each construct is a function that takes the compilers of its parts as arguments, and
`statement` and `declaration` tie them together with fuel. -/

namespace Lox.Compiler

section

variable (expr stmt decl : Compiler → Compiler)

/-! ### Statements -/

/-- A `print` statement, after the word. -/
def printStatement (c : Compiler) : Compiler :=
  ((expr c).expect .semicolon .endPrint).emit .print

/-- An expression whose value is dropped. -/
def expressionStatement (c : Compiler) : Compiler :=
  ((expr c).expect .semicolon .endExpression).emit .pop

/-- A `return` statement, after the word. -/
def returnStatement (c : Compiler) : Compiler :=
  let c := if c.body.isScript then c.report .returnFromScript else c
  if c.sees .semicolon then c.accept.emitBareReturn
  else ((expr c).expect .semicolon .endReturn).emit .ret

/-- An `if` statement, after the word. -/
def ifStatement (c : Compiler) : Compiler :=
  let c := (expr (c.expect .leftParen .openIf)).expect .rightParen .closeCondition
  let (toElse, c) := c.openJump .jumpIfFalse
  let c := stmt (c.emit .pop)
  let (toEnd, c) := c.openJump .jump
  let c := (c.closeJump toElse).emit .pop
  let c := if c.sees .elseWord then stmt c.accept else c
  c.closeJump toEnd

/-- A `while` statement, after the word. -/
def whileStatement (c : Compiler) : Compiler :=
  let start := c.codeSize
  let c := (expr (c.expect .leftParen .openWhile)).expect .rightParen .closeCondition
  let (toExit, c) := c.openJump .jumpIfFalse
  let c := stmt (c.emit .pop)
  ((c.emitLoop start).closeJump toExit).emit .pop

/-- A `var` declaration, after the word. -/
def varDeclaration (c : Compiler) : Compiler :=
  let (global, c) := c.declareName .variableName
  let c := if c.sees .equal then expr c.accept else c.emit .nil
  (c.expect .semicolon .endVariable).define global

/-- The first clause of a `for` statement. -/
def forInitializer (c : Compiler) : Compiler :=
  if c.sees .semicolon then c.accept
  else if c.sees .varWord then varDeclaration expr c.accept
  else expressionStatement expr c

/-- The second clause of a `for` statement, with the place of the jump out of the loop if
    there is a condition. -/
def forCondition (c : Compiler) : Option Nat × Compiler :=
  if c.sees .semicolon then (none, c.accept)
  else
    let (toExit, c) := ((expr c).expect .semicolon .endCondition).openJump .jumpIfFalse
    (some toExit, c.emit .pop)

/-- The third clause of a `for` statement of which each round begins at `start`, and the place to which the
    body has to go back. The code of the clause stands before the body, which jumps over it at first and back
    to it in the end. -/
def forIncrement (start : Nat) (c : Compiler) : Nat × Compiler :=
  if c.sees .rightParen then (start, c.accept)
  else
    let (toBody, c) := c.openJump .jump
    let increment := c.codeSize
    let c := ((expr c).emit .pop).expect .rightParen .closeClauses
    (increment, (c.emitLoop start).closeJump toBody)

/-- A `for` statement, after the word. Its variable has a scope of its own. -/
def forStatement (c : Compiler) : Compiler :=
  let c := forInitializer expr (c.openScope.expect .leftParen .openFor)
  let start := c.codeSize
  let (toExit, c) := forCondition expr c
  let (again, c) := forIncrement expr start c
  let c := (stmt c).emitLoop again
  let c := match toExit with
    | some toExit => (c.closeJump toExit).emit .pop
    | none => c
  c.closeScope

/-- The declarations of a block up to its closing brace. -/
def block (c : Compiler) : Nat → Compiler
  | 0 => c
  | fuel + 1 =>
    if c.sees .rightBrace || c.sees .endOfInput then c.expect .rightBrace .closeBlock
    else block (decl c) fuel

/-- A statement of any kind. -/
def anyStatement (fuel : Nat) (c : Compiler) : Compiler :=
  match c.current.kind with
  | .printWord => printStatement expr c.accept
  | .forWord => forStatement expr stmt c.accept
  | .ifWord => ifStatement expr stmt c.accept
  | .returnWord => returnStatement expr c.accept
  | .whileWord => whileStatement expr stmt c.accept
  | .leftBrace => (block decl c.accept.openScope fuel).closeScope
  | _ => expressionStatement expr c

/-! ### Declarations -/

/-- The parameters of a function from the next one on. -/
def parameters (c : Compiler) : Nat → Compiler
  | 0 => c
  | fuel + 1 =>
    let c :=
      if c.body.function.arity = 255 then c.reportHere .tooManyParameters
      else { c with body.function.arity := c.body.function.arity + 1 }
    let (global, c) := c.declareName .parameterName
    let c := c.define global
    if c.sees .comma then parameters c.accept fuel else c

/-- The parameters and body of a function with the given name. The body sees none of the enclosing function's
    locals. -/
def functionBody (fuel : Nat) (name : String) (c : Compiler) : Compiler :=
  let enclosing := c.body
  let c := { c with body := .start false (some name) }.openScope
  let c := c.expect .leftParen .openParameters
  let c := if c.sees .rightParen then c else c.parameters fuel
  let c := (c.expect .rightParen .closeParameters).expect .leftBrace .openBody
  let (function, c) := (block decl c fuel).finish
  { c with body := enclosing }.emitConstant (.function function)

/-- A `fun` declaration, after the word. A local function may mention itself. -/
def funDeclaration (fuel : Nat) (c : Compiler) : Compiler :=
  let (global, c) := c.declareName .functionName
  let c := c.completeLocal
  (functionBody decl fuel c.previous.lexeme c).define global

/-- A declaration of any kind, and the end of the panic if it caused one. -/
def anyDeclaration (fuel : Nat) (c : Compiler) : Compiler :=
  let c := match c.current.kind with
    | .funWord => funDeclaration decl fuel c.accept
    | .varWord => varDeclaration expr c.accept
    | _ => stmt c
  c.recover fuel

end

mutual

/-- Compiles a statement. -/
def statement : Nat → Compiler → Compiler
  | 0, c => c
  | fuel + 1, c => anyStatement (expression fuel .assignment) (statement fuel) (declaration fuel) fuel c

/-- Compiles a declaration. -/
def declaration : Nat → Compiler → Compiler
  | 0, c => c
  | fuel + 1, c => anyDeclaration (expression fuel .assignment) (statement fuel) (declaration fuel) fuel c

end

/-- Compiles declarations up to the end of the input, each with the given fuel. -/
def program (fuel : Nat) (c : Compiler) : Nat → Compiler
  | 0 => c
  | count + 1 => if c.sees .endOfInput then c.accept else program fuel (declaration fuel c) count

end Lox.Compiler
