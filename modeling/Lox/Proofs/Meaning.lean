import Lox.Fault
import Lox.Number.Nearest
import Lox.Proofs.Tree
import Lox.Value

/-! # The meaning of trees

An evaluator that walks the tree of a program. A local name means its innermost visible declaration in the
same function, and any other name a global. Evaluation goes from left to right. It has fuel, which bounds how
deep calls are nested and how many rounds a loop makes; `none` means that it was used up. -/

namespace Lox

namespace Tree

/-! ### Values -/

/-- A value. A function is a declaration of a program, which is known by its origin. -/
inductive Value where
  | nil
  | bool (value : Bool)
  | number (value : Float)
  | string (text : String)
  | function (origin : Nat) (name : Option String) (routine : Routine)
  | native (id : ObjectId) (native : Native)

namespace Value

/-- The text that `print` shows. -/
def text : Value → String
  | nil => "nil"
  | bool b => if b then "true" else "false"
  | number x => (Number.ofBits x.toBits).text
  | string s => s
  | function _ (some name) _ => "<fn " ++ name ++ ">"
  | function _ none _ => "<script>"
  | native _ _ => "<native fn>"

/-- Only nil and false are falsy. -/
def isFalsy : Value → Bool
  | nil | bool false => true
  | _ => false

/-- Functions are equal if they are the same declaration. -/
def equal : Value → Value → Bool
  | nil, nil => true
  | bool a, bool b => a == b
  | number x, number y => x == y
  | string s, string t => s == t
  | function o _ r, function o' _ r' => o == o' && r.place == r'.place
  | native i _, native j _ => i == j
  | _, _ => false

end Value

/-- What the routines of the host do with their arguments. -/
abbrev Host := (routine : String) → (arguments : List Value) → Except String Value

/-! ### Runs -/

/-- Variables with their values, and what was printed. -/
structure State where
  /-- The locals of the function that runs, innermost first. Last comes the function itself, under a name that
      no identifier has. -/
  locals : List (String × Value)
  globals : List (String × Value)
  output : String

/-- A computation with variables that may fail, and may need more fuel. -/
abbrev Run := ExceptT Fault (StateT State Option)

/-- The fuel is used up. -/
def Run.exhausted {α : Type} : Run α := fun _ => none

/-- Gives the innermost local with a name a value. -/
def setLocal (name : String) (value : Value) : List (String × Value) → List (String × Value)
  | [] => []
  | entry :: entries =>
    if entry.1 = name then (name, value) :: entries else entry :: setLocal name value entries

/-- Gives the global with a name a value. -/
def setGlobal (name : String) (value : Value) (globals : List (String × Value)) : List (String × Value) :=
  globals.map fun entry => if entry.1 = name then (name, value) else entry

/-- Creates a global or gives it a value. -/
def putGlobal (name : String) (value : Value) (globals : List (String × Value)) : List (String × Value) :=
  if (globals.lookup name).isSome then setGlobal name value globals else globals ++ [(name, value)]

/-- The value of a variable. -/
def read (name : String) : Run Value := do
  let s ← get
  match s.locals.lookup name, s.globals.lookup name with
  | some value, _ => pure value
  | none, some value => pure value
  | none, none => throw (.undefinedVariable name)

/-- Gives a variable a value. -/
def write (name : String) (value : Value) : Run Unit := do
  let s ← get
  if (s.locals.lookup name).isSome then set { s with locals := setLocal name value s.locals }
  else if (s.globals.lookup name).isSome then set { s with globals := setGlobal name value s.globals }
  else throw (.undefinedVariable name)

/-- Declares a variable, as a global or as a local. -/
def declare (isGlobal : Bool) (name : String) (value : Value) : Run Unit :=
  modify fun s =>
    if isGlobal then { s with globals := putGlobal name value s.globals }
    else { s with locals := (name, value) :: s.locals }

/-- Prints a line. -/
def print (text : String) : Run Unit := modify fun s => { s with output := s.output ++ (text ++ "\n") }

/-- The locals that were declared within are dropped at the end. -/
def inScope {α : Type} (x : Run α) : Run α := do
  let before := (← get).locals.length
  let a ← x
  modify fun s => { s with locals := s.locals.drop (s.locals.length - before) }
  pure a

/-- Runs with other locals. -/
def withLocals {α : Type} (locals : List (String × Value)) (x : Run α) : Run α := do
  let outer := (← get).locals
  modify fun s => { s with locals }
  let a ← x
  modify fun s => { s with locals := outer }
  pure a

section

variable {α : Type} (name : String) (value : Value) (locals : List (String × Value)) (x : Run α) (s : State)

theorem read_eq : read name s =
    match s.locals.lookup name, s.globals.lookup name with
    | some value, _ => some (.ok value, s)
    | none, some value => some (.ok value, s)
    | none, none => some (.error (.undefinedVariable name), s) := by
  show (match s.locals.lookup name, s.globals.lookup name with
    | some value, _ => (pure value : Run Value)
    | none, some value => (pure value : Run Value)
    | none, none => (throw (Fault.undefinedVariable name) : Run Value)) s = _
  cases s.locals.lookup name <;> cases s.globals.lookup name <;> rfl

theorem write_eq : write name value s =
    if (s.locals.lookup name).isSome then some (.ok (), { s with locals := setLocal name value s.locals })
    else if (s.globals.lookup name).isSome then
      some (.ok (), { s with globals := setGlobal name value s.globals })
    else some (.error (.undefinedVariable name), s) := by
  show (if (s.locals.lookup name).isSome then (set { s with locals := setLocal name value s.locals } : Run Unit)
    else if (s.globals.lookup name).isSome then
      (set { s with globals := setGlobal name value s.globals } : Run Unit)
    else (throw (Fault.undefinedVariable name) : Run Unit)) s = _
  split
  · rfl
  · split <;> rfl

theorem inScope_eq : inScope x s =
    match x s with
    | none => none
    | some (.error fault, s') => some (.error fault, s')
    | some (.ok a, s') =>
      some (.ok a, { s' with locals := s'.locals.drop (s'.locals.length - s.locals.length) }) := by
  show Option.bind (x s) _ = _
  rcases x s with _ | ⟨_ | a, s'⟩ <;> rfl

theorem withLocals_eq : withLocals locals x s =
    match x { s with locals } with
    | none => none
    | some (.error fault, s') => some (.error fault, s')
    | some (.ok a, s') => some (.ok a, { s' with locals := s.locals }) := by
  show Option.bind (x { s with locals }) _ = _
  rcases x { s with locals } with _ | ⟨_ | a, s'⟩ <;> rfl

end

/-- Makes rounds while a test holds. A round that returns a value ends the loop. -/
def repeatWhile (test : Run Bool) (body : Run (Option Value)) (after : Run Unit) :
    (rounds : Nat) → Run (Option Value)
  | 0 => Run.exhausted
  | rounds + 1 => do
    if ← test then
      match ← body with
      | some value => pure (some value)
      | none => do
        after
        repeatWhile test body after rounds
    else pure none

end Tree

open Lox.Tree (Run)

/-! ### Operators -/

/-- The value of a literal. -/
def Literal.value : Literal → Tree.Value
  | nil => .nil
  | bool b => .bool b
  | number bits => .number (Float.ofBits bits)
  | string text => .string text

/-- What an operator before its operand does. -/
def UnaryOp.apply : UnaryOp → Tree.Value → Except Fault Tree.Value
  | negate, .number x => .ok (.number (-x))
  | negate, _ => .error .operandNotNumber
  | logicalNot, a => .ok (.bool a.isFalsy)

namespace BinaryOp

/-- A function of two numbers. -/
def numeric (f : Float → Float → Tree.Value) : Tree.Value → Tree.Value → Except Fault Tree.Value
  | .number x, .number y => .ok (f x y)
  | _, _ => .error .operandsNotNumbers

/-- What an operator between two operands does. The comparisons with equality are the
    negations of the others. -/
def apply (op : BinaryOp) (a b : Tree.Value) : Except Fault Tree.Value :=
  match op with
  | equal => .ok (.bool (a.equal b))
  | notEqual => .ok (.bool (!a.equal b))
  | greater => numeric (fun x y => .bool (y < x)) a b
  | greaterEqual => numeric (fun x y => .bool (!decide (x < y))) a b
  | less => numeric (fun x y => .bool (x < y)) a b
  | lessEqual => numeric (fun x y => .bool (!decide (y < x))) a b
  | add =>
    match a, b with
    | .number x, .number y => .ok (.number (x + y))
    | .string s, .string t => .ok (.string (s ++ t))
    | _, _ => .error .operandsNotAddable
  | subtract => numeric (fun x y => .number (x - y)) a b
  | multiply => numeric (fun x y => .number (x * y)) a b
  | divide => numeric (fun x y => .number (x / y)) a b

end BinaryOp

/-! ### Expressions -/

namespace Expr

mutual

/-- The value of an expression, with `call` for calls. -/
def eval (call : Tree.Value → List Tree.Value → Run Tree.Value) : Expr → Run Tree.Value
  | literal value _ => pure value.value
  | mention name _ => Tree.read name
  | assign name value => do
    let v ← value.eval call
    Tree.write name v
    pure v
  | group inner _ => inner.eval call
  | unary op operand => do
    let a ← operand.eval call
    liftExcept (op.apply a)
  | binary op left right => do
    let a ← left.eval call
    let b ← right.eval call
    liftExcept (op.apply a b)
  | and left _ right => do
    let a ← left.eval call
    if a.isFalsy then pure a else right.eval call
  | or left _ right => do
    let a ← left.eval call
    if a.isFalsy then right.eval call else pure a
  | .call callee arguments _ => do
    let f ← callee.eval call
    let values ← evalAll call arguments
    call f values

/-- The values of arguments. -/
def evalAll (call : Tree.Value → List Tree.Value → Run Tree.Value) : List Expr → Run (List Tree.Value)
  | [] => pure []
  | e :: es => do
    let value ← e.eval call
    let values ← evalAll call es
    pure (value :: values)

end

end Expr

/-! ### Statements and declarations

A statement gives the value that it returns, if it returns. -/

section

variable (call : Tree.Value → List Tree.Value → Run Tree.Value)

/-- The initial value of a variable. -/
def Variable.initial (v : Variable) : Run Tree.Value :=
  match v.value with
  | none => pure .nil
  | some e => e.eval call

/-- Executes the first clause of a `for` statement. -/
def Initializer.exec : Initializer → Run Unit
  | empty => pure ()
  | var v => do
    let value ← v.initial call
    Tree.declare false v.name value
  | expression value _ => do
    let _ ← value.eval call

namespace Stmt

/-- Whether a loop with the given condition goes on. -/
def holds : Option Expr → Run Bool
  | none => pure true
  | some e => do
    let a ← e.eval call
    pure !a.isFalsy

/-- Executes the third clause of a `for` statement. -/
def increase : Option (Expr × UInt32) → Run Unit
  | none => pure ()
  | some (e, _) => do
    let _ ← e.eval call

end Stmt

variable (rounds origin : Nat)

mutual

/-- Executes a statement of a program. Its loops make at most so many rounds. -/
def Stmt.exec : Stmt → Run (Option Tree.Value)
  | .print value _ => do
    let v ← value.eval call
    Tree.print v.text
    pure none
  | .expression value _ => do
    let _ ← value.eval call
    pure none
  | .ret none _ => pure (some .nil)
  | .ret (some value) _ => do
    let v ← value.eval call
    pure (some v)
  | .ifElse condition _ thenPart none => do
    let a ← condition.eval call
    if a.isFalsy then pure none else thenPart.exec
  | .ifElse condition _ thenPart (some elsePart) => do
    let a ← condition.eval call
    if a.isFalsy then elsePart.exec else thenPart.exec
  | .whileLoop condition _ body =>
    Tree.repeatWhile (Stmt.holds call (some condition)) body.exec (pure ()) rounds
  | .forLoop initializer condition _ increment body => Tree.inScope do
    initializer.exec call
    Tree.repeatWhile (Stmt.holds call condition) body.exec (Stmt.increase call increment) rounds
  | .block declarations _ => Tree.inScope (Decl.execAll false declarations)

/-- Executes a declaration, which makes a global or a local. -/
def Decl.exec (isGlobal : Bool) : Decl → Run (Option Tree.Value)
  | .var v => do
    let value ← v.initial call
    Tree.declare isGlobal v.name value
    pure none
  | .function name routine => do
    Tree.declare isGlobal name (.function origin (some name) routine)
    pure none
  | .statement s => s.exec

/-- Executes declarations, up to the first that returns. -/
def Decl.execAll (isGlobal : Bool) : List Decl → Run (Option Tree.Value)
  | [] => pure none
  | d :: ds => do
    match ← d.exec isGlobal with
    | some value => pure (some value)
    | none => Decl.execAll isGlobal ds

end

end

/-! ### Calls and programs -/

namespace Tree

/-- Calls a value while so many calls are active. A function has the arguments as its locals, and gives nil
    unless it returns a value. The declarations of a script make globals. -/
def call (natives : Host) (maxFrames : Nat) : (fuel active : Nat) → Value → List Value → Run Value
  | 0, _, _, _ => Run.exhausted
  | fuel + 1, active, callee, arguments =>
    match callee with
    | .function origin name r =>
      if arguments.length ≠ r.parameters.length then
        throw (.arity (UInt8.ofNat r.parameters.length) (UInt8.ofNat arguments.length))
      else if maxFrames ≤ active then throw .stackOverflow
      else withLocals ((r.parameters.zip arguments).reverse ++ [("", callee)]) do
        let result ← Decl.execAll (call natives maxFrames fuel (active + 1)) fuel origin name.isNone r.body
        pure (result.getD .nil)
    | .native _ native =>
      match natives native.routine arguments with
      | .ok value => pure value
      | .error complaint => throw (.native complaint)
    | _ => throw .notCallable

/-- What comes of a program: how it ends, what it has printed, and the globals that it leaves. -/
structure Outcome where
  result : Except Fault Unit
  output : String
  globals : List (String × Value)

/-- Evaluates a program. -/
def evaluate (natives : Host) (maxFrames fuel origin : Nat) (program : Routine)
    (globals : List (String × Value)) :
    Option Outcome :=
  (call natives maxFrames fuel 0 (.function origin none program) [] ⟨[], globals, ""⟩).map fun (result, s) =>
    { result := result.map fun _ => (), output := s.output, globals := s.globals }

end Tree

end Lox
