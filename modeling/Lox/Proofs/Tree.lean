import Lox.Token

/-! # Syntax trees

The trees of expressions, statements and declarations. A tree keeps what the meaning and the code of its text
depend on: the names, the literals, and the lines of those tokens at which code is written. -/

namespace Lox

/-- A literal. A number is kept by its bits. -/
inductive Literal where
  | nil
  | bool (value : Bool)
  | number (bits : UInt64)
  | string (text : String)
deriving DecidableEq, Repr

/-- An operator before its operand. -/
inductive UnaryOp where
  | negate
  | logicalNot
deriving DecidableEq, Repr

/-- An operator between two operands, except `and` and `or`. -/
inductive BinaryOp where
  | equal
  | notEqual
  | greater
  | greaterEqual
  | less
  | lessEqual
  | add
  | subtract
  | multiply
  | divide
deriving DecidableEq, Repr

/-- An expression. -/
inductive Expr where
  | literal (value : Literal) (line : UInt32)
  /-- The value of a variable. -/
  | mention (name : String) (line : UInt32)
  | assign (name : String) (value : Expr)
  /-- An expression in parentheses, with the line of the closing one. -/
  | group (inner : Expr) (line : UInt32)
  | unary (op : UnaryOp) (operand : Expr)
  | binary (op : BinaryOp) (left right : Expr)
  /-- Both operands around `and`, with the line of the word. -/
  | and (left : Expr) (line : UInt32) (right : Expr)
  /-- Both operands around `or`, with the line of the word. -/
  | or (left : Expr) (line : UInt32) (right : Expr)
  /-- A call, with the line of its closing parenthesis. -/
  | call (callee : Expr) (arguments : List Expr) (line : UInt32)

namespace Expr

/-- The line of the last token of an expression. -/
def endLine : Expr → UInt32
  | literal _ line => line
  | mention _ line => line
  | assign _ value => value.endLine
  | group _ line => line
  | unary _ operand => operand.endLine
  | binary _ _ right => right.endLine
  | and _ _ right => right.endLine
  | or _ _ right => right.endLine
  | call _ _ line => line

end Expr

/-- The declaration of a variable, with the lines of its name and of its semicolon. -/
structure Variable where
  name : String
  nameLine : UInt32
  value : Option Expr
  line : UInt32

/-- The first clause of a `for` statement. -/
inductive Initializer where
  | empty
  | var (declaration : Variable)
  | expression (value : Expr) (line : UInt32)

/-- The name that the first clause of a `for` statement declares. -/
def Initializer.name? : Initializer → Option String
  | var declaration => some declaration.name
  | _ => none

mutual

/-- A statement. -/
inductive Stmt where
  /-- An expression whose value is shown, with the line of the semicolon. -/
  | print (value : Expr) (line : UInt32)
  /-- An expression whose value is dropped, with the line of the semicolon. -/
  | expression (value : Expr) (line : UInt32)
  | ret (value : Option Expr) (line : UInt32)
  /-- A choice, with the line of the parenthesis after the condition. -/
  | ifElse (condition : Expr) (line : UInt32) (thenPart : Stmt) (elsePart : Option Stmt)
  | whileLoop (condition : Expr) (line : UInt32) (body : Stmt)
  /-- A loop with clauses, with the line of the second semicolon; the third clause has the line of the
      parenthesis after it. -/
  | forLoop (initializer : Initializer) (condition : Option Expr) (line : UInt32)
      (increment : Option (Expr × UInt32))
      (body : Stmt)
  /-- Declarations in a scope of their own, with the line of the closing brace. -/
  | block (declarations : List Decl) (line : UInt32)

/-- A declaration. -/
inductive Decl where
  | var (declaration : Variable)
  | function (name : String) (routine : Routine)
  | statement (statement : Stmt)

/-- The parameters and the body of a function, or a whole script, with the line of its end. Its place tells it
    apart from all other functions of the text: it is the number of tokens from its name on. -/
structure Routine where
  place : Nat
  parameters : List String
  body : List Decl
  line : UInt32

end

/-- The line of the last token of a statement. -/
def Stmt.endLine : Stmt → UInt32
  | print _ line => line
  | expression _ line => line
  | ret _ line => line
  | ifElse _ _ thenPart none => thenPart.endLine
  | ifElse _ _ _ (some elsePart) => elsePart.endLine
  | whileLoop _ _ body => body.endLine
  | forLoop _ _ _ _ body => body.endLine
  | block _ line => line

namespace Decl

/-- The line of the last token of a declaration. -/
def endLine : Decl → UInt32
  | var declaration => declaration.line
  | function _ routine => routine.line
  | statement s => s.endLine

/-- The name that a declaration declares. -/
def name? : Decl → Option String
  | var declaration => some declaration.name
  | function name _ => some name
  | statement _ => none

end Decl

end Lox
