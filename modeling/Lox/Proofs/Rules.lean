import Lox.Compiler.Variable
import Lox.Proofs.Code

/-! # Static rules

What a program has to obey beyond its grammar: a return stands in a function; a scope declares a name only
once; a local is not mentioned in its own initializer; and the counts that an operand has to express are
bounded: locals and constants of a function, arguments, parameters, and the bytes that a jump crosses. -/

namespace Lox

/-! ### Names -/

/-- A name can be mentioned: it is no local, or one whose initializer is complete. -/
def Local.Usable (locals : List Local) (name : String) : Prop :=
  ∀ slot loc, Local.resolve? name locals = some (slot, loc) → loc.depth ≠ none

/-- A name can be declared. Inside a scope, no other local of the same scope has the name, and there is
    room for one more. -/
def Scope.Admits (scope : Scope) (name : String) : Prop :=
  scope.depth ≠ 0 →
    (∀ loc ∈ scope.locals, loc.depth = some scope.depth → loc.name ≠ name) ∧
    scope.locals.length < Compiler.maxLocals

/-! ### Expressions and clauses -/

mutual

/-- An expression obeys the rules among the given locals. -/
def Expr.Allowed (locals : List Local) : Expr → Prop
  | .literal _ _ => True
  | .mention name _ => Local.Usable locals name
  | .assign name value => Local.Usable locals name ∧ value.Allowed locals
  | .group inner _ => inner.Allowed locals
  | .unary _ operand => operand.Allowed locals
  | .binary _ left right => left.Allowed locals ∧ right.Allowed locals
  | .and left _ right => left.Allowed locals ∧ right.Allowed locals ∧ 1 + right.length ≤ Compiler.maxJump
  | .or left _ right => left.Allowed locals ∧ right.Allowed locals ∧ 1 + right.length ≤ Compiler.maxJump
  | .call callee arguments _ =>
    callee.Allowed locals ∧ Expr.AllAllowed locals arguments ∧ arguments.length ≤ 255

/-- Some expressions obey the rules. -/
def Expr.AllAllowed (locals : List Local) : List Expr → Prop
  | [] => True
  | e :: es => e.Allowed locals ∧ Expr.AllAllowed locals es

end

/-- The declaration of a variable obeys the rules. The new local is in scope in its own
    initializer, but not usable. -/
def Variable.Allowed (scope : Scope) (v : Variable) : Prop :=
  scope.Admits v.name ∧
    ∀ e ∈ v.value, e.Allowed (if scope.depth = 0 then scope.locals else ⟨v.name, none⟩ :: scope.locals)

/-- The first clause of a `for` statement obeys the rules. -/
def Initializer.Allowed (scope : Scope) : Initializer → Prop
  | .empty => True
  | .var v => v.Allowed scope
  | .expression value _ => value.Allowed scope.locals

/-- The jumps of a `for` statement are in range: out of the loop, over the third clause, and back. -/
structure Stmt.ForFits (condition : Option Expr) (increment : Option (Expr × UInt32))
    (bodyLength : Nat) : Prop where
  exit : condition.isSome → 1 + (incrementLength increment + bodyLength + 3) ≤ Compiler.maxJump
  back : ∀ e ∈ increment, conditionLength condition + e.1.length + 7 ≤ Compiler.maxJump
  round : roundLength condition increment bodyLength ≤ Compiler.maxJump

/-! ### Statements and declarations -/

mutual

/-- A statement of a script or of a function obeys the rules in a scope. -/
def Stmt.Allowed (isScript : Bool) (scope : Scope) : Stmt → Prop
  | .print value _ => value.Allowed scope.locals
  | .expression value _ => value.Allowed scope.locals
  | .ret none _ => isScript = false
  | .ret (some value) _ => isScript = false ∧ value.Allowed scope.locals
  | .ifElse condition _ thenPart none =>
    condition.Allowed scope.locals ∧ thenPart.Allowed isScript scope ∧ thenPart.length + 4 ≤ Compiler.maxJump
  | .ifElse condition _ thenPart (some elsePart) =>
    condition.Allowed scope.locals ∧ thenPart.Allowed isScript scope ∧ elsePart.Allowed isScript scope ∧
      thenPart.length + 4 ≤ Compiler.maxJump ∧ 1 + elsePart.length ≤ Compiler.maxJump
  | .whileLoop condition _ body =>
    condition.Allowed scope.locals ∧ body.Allowed isScript scope ∧
      condition.length + 4 + body.length + 3 ≤ Compiler.maxJump
  | .forLoop initializer condition _ increment body =>
    initializer.Allowed scope.inner ∧
      (∀ e ∈ condition, e.Allowed (scope.inner.after initializer.name?).locals) ∧
      (∀ e ∈ increment, e.1.Allowed (scope.inner.after initializer.name?).locals) ∧
      body.Allowed isScript (scope.inner.after initializer.name?) ∧ Stmt.ForFits condition increment body.length
  | .block declarations _ => Decl.AllAllowed isScript scope.inner declarations

/-- A declaration obeys the rules. -/
def Decl.Allowed (isScript : Bool) (scope : Scope) : Decl → Prop
  | .var v => v.Allowed scope
  | .function name routine => scope.Admits name ∧ routine.Allowed (some name)
  | .statement s => s.Allowed isScript scope

/-- Declarations obey the rules, each in the scope after those before it. -/
def Decl.AllAllowed (isScript : Bool) (scope : Scope) : List Decl → Prop
  | [] => True
  | d :: ds => d.Allowed isScript scope ∧ Decl.AllAllowed isScript (scope.after d.name?) ds

/-- A function or script obeys the rules. Its parameters and the outermost declarations of its
    body are one scope. -/
def Routine.Allowed (name : Option String) : Routine → Prop
  | ⟨_, parameters, body, _⟩ =>
    parameters.length ≤ 255 ∧ parameters.Nodup ∧
      Decl.AllAllowed name.isNone (Scope.ofRoutine name parameters) body ∧
      (Decl.codes (Scope.ofRoutine name parameters) 0 body).constants.length ≤ Chunk.maxConstants

end

end Lox
