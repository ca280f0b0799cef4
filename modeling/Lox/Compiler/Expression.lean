import Lox.Compiler.Variable
import Lox.Number.Nearest

/-! # Expressions

Expressions are compiled by operator precedence: an operand, and then the operators that bind at least
as tightly as the context asks for. The functions for single constructs take the compiler of
subexpressions as an argument; `expression` ties them together, with fuel for the depth of nesting and
the length of operator chains. -/

namespace Lox

/-- How tightly an operator binds, from loosest to tightest. -/
inductive Level where
  | none
  | assignment
  | or
  | and
  | equality
  | comparison
  | term
  | factor
  | unary
  | call
  | primary
deriving DecidableEq, Repr

namespace Level

/-- The place of a level among all levels. -/
def rank (level : Level) : Nat := level.ctorIdx

/-- The next tighter level. -/
def next : Level → Level
  | none => assignment
  | assignment => or
  | or => and
  | and => equality
  | equality => comparison
  | comparison => term
  | term => factor
  | factor => unary
  | unary => call
  | call | primary => primary

/-- The level of a word as an operator after an operand; `none` if it is no such operator. -/
def ofKind : Token.Kind → Level
  | .leftParen => call
  | .minus | .plus => term
  | .slash | .star => factor
  | .bangEqual | .equalEqual => equality
  | .greater | .greaterEqual | .less | .lessEqual => comparison
  | .andWord => and
  | .orWord => or
  | _ => none

end Level

namespace Compiler

/-- The instructions of a binary operator. Three of the comparisons are the negations of others. -/
def operatorCode : Token.Kind → List Instruction
  | .bangEqual => [.equal, .logicalNot]
  | .equalEqual => [.equal]
  | .greater => [.greater]
  | .greaterEqual => [.less, .logicalNot]
  | .less => [.less]
  | .lessEqual => [.greater, .logicalNot]
  | .plus => [.add]
  | .minus => [.subtract]
  | .star => [.multiply]
  | .slash => [.divide]
  | _ => []

/-- Whether an expression can begin with a word of this kind. -/
def startsExpression : Token.Kind → Bool
  | .leftParen | .minus | .bang | .identifier | .string | .number | .falseWord | .trueWord | .nilWord => true
  | _ => false

section

variable (parse : Level → Compiler → Compiler)

/-- A mention of the variable that was just accepted or, where one may stand, an assignment to it. -/
def mention (assignable : Bool) (c : Compiler) : Compiler :=
  let name := c.previous
  let (read, write, c) : Instruction × Instruction × Compiler :=
    match c.resolve name with
    | (some slot, c) => (.getLocal slot, .setLocal slot, c)
    | (none, c) =>
      let (index, c) := c.nameConstant name
      (.getGlobal index, .setGlobal index, c)
  if assignable && c.sees .equal then (parse .assignment c.accept).emit write
  else c.emit read

/-- The operand that begins with the word that was just accepted. -/
def operand (assignable : Bool) (c : Compiler) : Compiler :=
  match c.previous.kind with
  | .leftParen => (parse .assignment c).expect .rightParen .closeGroup
  | .minus => (parse .unary c).emit .negate
  | .bang => (parse .unary c).emit .logicalNot
  | .identifier => mention parse assignable c
  | .string => c.emitConstant (.string (String.ofList (c.previous.lexeme.toList.drop 1).dropLast))
  | .number => c.emitConstant (.number (Number.ofLiteral c.previous.lexeme))
  | .falseWord => c.emit .falseValue
  | .trueWord => c.emit .trueValue
  | .nilWord => c.emit .nil
  | _ => c

/-- The arguments of a call from the next one on, after `count` of them, and how many there are in all. -/
def arguments (count : UInt8) (c : Compiler) : Nat → UInt8 × Compiler
  | 0 => (count, c)
  | fuel + 1 =>
    let c := parse .assignment c
    let (count, c) := if count = 255 then (count, c.report .tooManyArguments) else (count + 1, c)
    if c.sees .comma then arguments count c.accept fuel else (count, c)

/-- A call of the operand before the parenthesis that was just accepted. -/
def callOperator (fuel : Nat) (c : Compiler) : Compiler :=
  let (count, c) := if c.sees .rightParen then (0, c) else arguments parse 0 c fuel
  (c.expect .rightParen .closeArguments).emit (.call count)

/-- The right side of `and`, which is skipped if the left side is falsy. -/
def andOperator (c : Compiler) : Compiler :=
  let (toEnd, c) := c.openJump .jumpIfFalse
  (parse .and (c.emit .pop)).closeJump toEnd

/-- The right side of `or`, which is skipped unless the left side is falsy. -/
def orOperator (c : Compiler) : Compiler :=
  let (toRight, c) := c.openJump .jumpIfFalse
  let (toEnd, c) := c.openJump .jump
  (parse .or ((c.closeJump toRight).emit .pop)).closeJump toEnd

/-- What follows the operator that was just accepted. Binary operators associate to the left. -/
def operator (fuel : Nat) (c : Compiler) : Compiler :=
  match c.previous.kind with
  | .leftParen => callOperator parse fuel c
  | .andWord => andOperator parse c
  | .orWord => orOperator parse c
  | kind => (operatorCode kind).foldl emit (parse (Level.ofKind kind).next c)

/-- The operators after an operand that bind at least as tightly as `level`. -/
def operators (level : Level) (c : Compiler) : Nat → Compiler
  | 0 => c
  | fuel + 1 =>
    if level.rank ≤ (Level.ofKind c.current.kind).rank then
      operators level (operator parse fuel c.accept) fuel
    else c

end

/-- Compiles an expression of at least the given level. Only the loosest level admits an assignment. -/
def expression : Nat → Level → Compiler → Compiler
  | 0, _, c => c
  | fuel + 1, level, c =>
    let c := c.accept
    if startsExpression c.previous.kind then
      let assignable : Bool := level.rank ≤ Level.assignment.rank
      let c := operators (expression fuel) level (operand (expression fuel) assignable c) fuel
      if assignable && c.sees .equal then c.accept.report .invalidTarget else c
    else c.report (.expected .expression)

end Compiler

end Lox
