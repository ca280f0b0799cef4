import Lox.Compiler
import Lox.Proofs.Tree
import Mathlib.Algebra.GroupWithZero.Nat

/-! # The code of a tree

What the compiler writes for a tree, as a function of the tree. A fragment of code comes with the constants
that it adds to the pool, so it depends on how many constants the pool has already; jumps are relative, so it
does not depend on where it stands. Every instruction is annotated with its line and its height, the number of
values that its call has on the stack before it. -/

namespace Lox

/-- The index of the constant that an instruction refers to. -/
def Instruction.index? : Instruction → Option UInt8
  | constant index | getGlobal index | defineGlobal index | setGlobal index => some index
  | _ => none

/-! ### Fragments -/

/-- An instruction with its line and its height. -/
structure Item where
  line : UInt32
  height : Nat
  instruction : Instruction
deriving DecidableEq, Repr

/-- A piece of code with the constants that it adds to the pool. -/
structure Fragment where
  items : List Item := []
  constants : List Constant := []

namespace Fragment

instance : Append Fragment := ⟨fun a b => ⟨a.items ++ b.items, a.constants ++ b.constants⟩⟩

/-- One instruction. -/
def single (line : UInt32) (height : Nat) (instruction : Instruction) : Fragment :=
  ⟨[⟨line, height, instruction⟩], []⟩

/-- A constant, without code. -/
def pool (constant : Constant) : Fragment := ⟨[], [constant]⟩

/-- Pops of `count` values, down to the given height. -/
def pops (line : UInt32) (height : Nat) : (count : Nat) → Fragment
  | 0 => {}
  | count + 1 => single line (height + count + 1) .pop ++ pops line height count

/-- The bytes of the code. -/
def bytes (fragment : Fragment) : List UInt8 := fragment.items.flatMap (·.instruction.bytes)

/-- The lines of the bytes of the code. -/
def lines (fragment : Fragment) : List UInt32 :=
  fragment.items.flatMap fun item => List.replicate item.instruction.size item.line

/-- The number of bytes of the code. -/
def size (fragment : Fragment) : Nat := (fragment.items.map (·.instruction.size)).sum

section

variable (a b c : Fragment) (line : UInt32) (height : Nat) (instruction : Instruction) (constant : Constant)

@[simp] theorem items_append : (a ++ b).items = a.items ++ b.items := rfl

@[simp] theorem constants_append : (a ++ b).constants = a.constants ++ b.constants := rfl

@[simp] theorem items_single : (single line height instruction).items = [⟨line, height, instruction⟩] := rfl

@[simp] theorem constants_single : (single line height instruction).constants = [] := rfl

@[simp] theorem items_pool : (pool constant).items = [] := rfl

@[simp] theorem constants_pool : (pool constant).constants = [constant] := rfl

@[simp] theorem constants_pops (count : Nat) : (pops line height count).constants = [] := by
  induction count with
  | zero => rfl
  | succ count ih => simpa [pops] using ih

theorem ext {a b : Fragment} (hitems : a.items = b.items) (hconstants : a.constants = b.constants) : a = b := by
  cases a
  cases b
  cases hitems
  cases hconstants
  rfl

theorem append_assoc : a ++ b ++ c = a ++ (b ++ c) :=
  ext (List.append_assoc ..) (List.append_assoc ..)

@[simp] theorem append_empty : a ++ {} = a := ext (List.append_nil _) (List.append_nil _)

@[simp] theorem empty_append : {} ++ a = a := rfl

@[simp] theorem bytes_append : (a ++ b).bytes = a.bytes ++ b.bytes := by
  simp [bytes]

@[simp] theorem lines_append : (a ++ b).lines = a.lines ++ b.lines := by
  simp [lines]

@[simp] theorem size_append : (a ++ b).size = a.size + b.size := by
  simp [size]

@[simp] theorem size_single : (single line height instruction).size = instruction.size := by
  simp [size]

@[simp] theorem size_pool : (pool constant).size = 0 := rfl

@[simp] theorem size_empty : ({} : Fragment).size = 0 := rfl

@[simp] theorem size_pops (count : Nat) : (pops line height count).size = count := by
  induction count with
  | zero => rfl
  | succ count ih =>
    rw [pops, size_append, ih, size_single]
    exact Nat.add_comm 1 count

theorem length_bytes : a.bytes.length = a.size := by
  simp [bytes, size, List.length_flatMap, Instruction.length_bytes]

theorem length_lines : a.lines.length = a.size := by
  simp [lines, size, List.length_flatMap]

end

end Fragment

/-! ### Scopes -/

/-- The locals of a function that are in scope, innermost first, and the number of open scopes. -/
structure Scope where
  locals : List Local
  depth : Nat

namespace Scope

/-- The scope in which the body of a function begins: its parameters above the slot of the function itself.
    Those of a script are its globals, so no scope is open. -/
def ofRoutine (name : Option String) (parameters : List String) : Scope :=
  match name with
  | none => ⟨[⟨"", some 0⟩], 0⟩
  | some _ => ⟨(parameters.map fun parameter => ⟨parameter, some 1⟩).reverse ++ [⟨"", some 0⟩], 1⟩

/-- Opens a scope. -/
def inner (scope : Scope) : Scope := { scope with depth := scope.depth + 1 }

/-- The number of values that a call has on the stack between two statements. -/
def height (scope : Scope) : Nat := scope.locals.length

/-- Brings a name into scope. Outside all scopes it is a global, which is no matter of scopes. -/
def declare (scope : Scope) (name : String) : Scope :=
  if scope.depth = 0 then scope else { scope with locals := ⟨name, some scope.depth⟩ :: scope.locals }

/-- The scope after a declaration of the given name, if there is one. -/
def after (scope : Scope) : Option String → Scope
  | none => scope
  | some name => scope.declare name

@[simp] theorem depth_declare (scope : Scope) (name : String) : (scope.declare name).depth = scope.depth := by
  unfold declare
  split <;> rfl

@[simp] theorem depth_after (scope : Scope) (name : Option String) :
    (scope.after name).depth = scope.depth := by
  cases name with
  | none => rfl
  | some name => exact scope.depth_declare name

/-- The scope after some declarations. -/
def afterAll (scope : Scope) : List Decl → Scope
  | [] => scope
  | d :: ds => (scope.after d.name?).afterAll ds

/-- What declarations add to a scope. -/
theorem afterAll_eq (scope : Scope) (hdepth : scope.depth ≠ 0) (ds : List Decl) :
    scope.afterAll ds = ⟨(ds.filterMap Decl.name?).reverse.map (fun name => ⟨name, some scope.depth⟩) ++
      scope.locals, scope.depth⟩ := by
  induction ds generalizing scope with
  | nil => rfl
  | cons d ds ih =>
    have hsame := scope.depth_after d.name?
    rw [afterAll, ih (scope.after d.name?) (hsame ▸ hdepth), hsame]
    cases hname : d.name? with
    | none => simp [hname, after]
    | some name => simp [hname, after, declare, hdepth]

end Scope

/-! ### Expressions -/

/-- The byte operand for a number. -/
abbrev operandByte (n : Nat) : UInt8 := UInt8.ofNat n

/-- The word operand for a distance. -/
abbrev operandWord (n : Nat) : UInt16 := UInt16.ofNat n

/-- The code of a literal. -/
def Literal.code (literal : Literal) (line : UInt32) (count height : Nat) : Fragment :=
  match literal with
  | nil => .single line height .nil
  | bool false => .single line height .falseValue
  | bool true => .single line height .trueValue
  | number bits => .pool (.number bits) ++ .single line height (.constant (operandByte count))
  | string text => .pool (.string text) ++ .single line height (.constant (operandByte count))

/-- The instruction of an operator before its operand. -/
def UnaryOp.instruction : UnaryOp → Instruction
  | negate => .negate
  | logicalNot => .logicalNot

namespace BinaryOp

/-- The instruction of an operator between two operands. -/
def instruction : BinaryOp → Instruction
  | equal | notEqual => .equal
  | greater | lessEqual => .greater
  | less | greaterEqual => .less
  | add => .add
  | subtract => .subtract
  | multiply => .multiply
  | divide => .divide

/-- Whether the operator is the negation of its instruction. -/
def negated : BinaryOp → Bool
  | notEqual | greaterEqual | lessEqual => true
  | _ => false

/-- The code of an operator, above its operands. -/
def code (op : BinaryOp) (line : UInt32) (height : Nat) : Fragment :=
  .single line (height + 2) op.instruction ++
    if op.negated then .single line (height + 1) .logicalNot else {}

end BinaryOp

namespace Expr

mutual

/-- The number of bytes of the code of an expression. -/
def length : Expr → Nat
  | literal (.number _) _ | literal (.string _) _ => 2
  | literal _ _ => 1
  | mention _ _ => 2
  | assign _ value => value.length + 2
  | group inner _ => inner.length
  | unary _ operand => operand.length + 1
  | binary op left right => left.length + right.length + if op.negated then 2 else 1
  | and left _ right => left.length + 4 + right.length
  | or left _ right => left.length + 7 + right.length
  | call callee arguments _ => callee.length + lengths arguments + 2

/-- The number of bytes of the code of some expressions. -/
def lengths : List Expr → Nat
  | [] => 0
  | e :: es => e.length + lengths es

end

mutual

/-- The code of an expression, for a pool of `count` constants and the given height. Its value is
    left on the stack. -/
def code (locals : List Local) (count height : Nat) : Expr → Fragment
  | literal value line => value.code line count height
  | mention name line =>
    match Local.resolve? name locals with
    | some (slot, _) => .single line height (.getLocal (operandByte slot))
    | none => .pool (.string name) ++ .single line height (.getGlobal (operandByte count))
  | assign name value =>
    match Local.resolve? name locals with
    | some (slot, _) =>
      value.code locals count height ++ .single value.endLine (height + 1) (.setLocal (operandByte slot))
    | none =>
      .pool (.string name) ++ value.code locals (count + 1) height ++
        .single value.endLine (height + 1) (.setGlobal (operandByte count))
  | group inner _ => inner.code locals count height
  | unary op operand => operand.code locals count height ++ .single operand.endLine (height + 1) op.instruction
  | binary op left right =>
    let a := left.code locals count height
    a ++ right.code locals (count + a.constants.length) (height + 1) ++ op.code right.endLine height
  | and left line right =>
    let a := left.code locals count height
    a ++ .single line (height + 1) (.jumpIfFalse (operandWord (1 + right.length))) ++
      .single line (height + 1) .pop ++ right.code locals (count + a.constants.length) height
  | or left line right =>
    let a := left.code locals count height
    a ++ .single line (height + 1) (.jumpIfFalse (operandWord 3)) ++
      .single line (height + 1) (.jump (operandWord (1 + right.length))) ++
      .single line (height + 1) .pop ++ right.code locals (count + a.constants.length) height
  | call callee arguments line =>
    let a := callee.code locals count height
    a ++ codes locals (count + a.constants.length) (height + 1) arguments ++
      .single line (height + 1 + arguments.length) (.call (operandByte arguments.length))

/-- The code of arguments, one after the other. -/
def codes (locals : List Local) (count height : Nat) : List Expr → Fragment
  | [] => {}
  | e :: es =>
    let a := e.code locals count height
    a ++ codes locals (count + a.constants.length) (height + 1) es

end

end Expr

/-! ### Clauses -/

namespace Variable

/-- The number of bytes of the code of an initial value. -/
def valueLength (v : Variable) : Nat := v.value.elim 1 Expr.length

/-- The number of bytes of the code of a variable's declaration, as a global or as a local. -/
def length (isGlobal : Bool) (v : Variable) : Nat := v.valueLength + if isGlobal then 2 else 0

/-- The code of an initial value. -/
def valueCode (locals : List Local) (count height : Nat) (v : Variable) : Fragment :=
  match v.value with
  | none => .single v.nameLine height .nil
  | some e => e.code locals count height

/-- The code of a variable's declaration. A local stays where its initial value was computed, and is not usable
    there. -/
def code (scope : Scope) (count : Nat) (v : Variable) : Fragment :=
  if scope.depth = 0 then
    .pool (.string v.name) ++ v.valueCode scope.locals (count + 1) scope.height ++
      .single v.line (scope.height + 1) (.defineGlobal (operandByte count))
  else v.valueCode (⟨v.name, none⟩ :: scope.locals) count scope.height

end Variable

namespace Initializer

/-- The number of bytes of the code of a first clause. -/
def length : Initializer → Nat
  | empty => 0
  | var v => v.length false
  | expression value _ => value.length + 1

/-- The code of a first clause. -/
def code (scope : Scope) (count : Nat) : Initializer → Fragment
  | empty => {}
  | var v => v.code scope count
  | expression value line =>
    value.code scope.locals count scope.height ++ .single line (scope.height + 1) .pop

end Initializer

namespace Stmt

/-- The number of bytes of the code of a second clause: the condition and the way out of the loop. -/
def conditionLength (condition : Option Expr) : Nat := condition.elim 0 fun e => e.length + 4

/-- The number of bytes of the code of a third clause: a jump over it, the expression, and the way back. -/
def incrementLength (increment : Option (Expr × UInt32)) : Nat := increment.elim 0 fun e => e.1.length + 7

/-- How far the end of the body of a `for` statement is from the place at which the next round begins: the
    third clause if there is one, and else the condition. -/
def roundLength (condition : Option Expr) (increment : Option (Expr × UInt32)) (bodyLength : Nat) : Nat :=
  match increment with
  | none => conditionLength condition + bodyLength + 3
  | some (e, _) => e.length + 4 + bodyLength + 3

/-- The code of a second clause, with `rest` bytes from there to the end of the loop. -/
def conditionCode (locals : List Local) (count height : Nat) (line : UInt32) (rest : Nat) :
    Option Expr → Fragment
  | none => {}
  | some e =>
    e.code locals count height ++ .single line (height + 1) (.jumpIfFalse (operandWord (1 + rest))) ++
      .single line (height + 1) .pop

/-- The code of a third clause after a condition of the given length. It is jumped over at first. -/
def incrementCode (locals : List Local) (count height : Nat) (line : UInt32) (conditionLength : Nat) :
    Option (Expr × UInt32) → Fragment
  | none => {}
  | some (e, close) =>
    .single line height (.jump (operandWord (e.length + 4))) ++ e.code locals count height ++
      .single e.endLine (height + 1) .pop ++
      .single close height (.loop (operandWord (conditionLength + e.length + 7)))

/-- The code at the end of a loop with a condition: it drops the falsy value. -/
def exitCode (line : UInt32) (height : Nat) : Option Expr → Fragment
  | none => {}
  | some _ => .single line (height + 1) .pop

end Stmt

/-! ### Statements and declarations -/

mutual

/-- The number of bytes of the code of a statement. -/
def Stmt.length : Stmt → Nat
  | .print value _ => value.length + 1
  | .expression value _ => value.length + 1
  | .ret none _ => 2
  | .ret (some value) _ => value.length + 1
  | .ifElse condition _ thenPart none => condition.length + 8 + thenPart.length
  | .ifElse condition _ thenPart (some elsePart) => condition.length + 8 + thenPart.length + elsePart.length
  | .whileLoop condition _ body => condition.length + 8 + body.length
  | .forLoop initializer condition _ increment body =>
    initializer.length + Stmt.conditionLength condition + Stmt.incrementLength increment + body.length + 3 +
      (if condition.isSome then 1 else 0) + if initializer.name?.isSome then 1 else 0
  | .block declarations _ => Decl.lengths false declarations + (declarations.filterMap Decl.name?).length

/-- The number of bytes of the code of a declaration, outside all scopes or inside one. -/
def Decl.length (isGlobal : Bool) : Decl → Nat
  | .var v => v.length isGlobal
  | .function _ _ => if isGlobal then 4 else 2
  | .statement s => s.length

/-- The number of bytes of the code of declarations. -/
def Decl.lengths (isGlobal : Bool) : List Decl → Nat
  | [] => 0
  | d :: ds => d.length isGlobal + Decl.lengths isGlobal ds

end

mutual

/-- The code of a statement. It leaves the stack as high as it was. -/
def Stmt.code (scope : Scope) (count : Nat) : Stmt → Fragment
  | .print value line =>
    value.code scope.locals count scope.height ++ .single line (scope.height + 1) .print
  | .expression value line =>
    value.code scope.locals count scope.height ++ .single line (scope.height + 1) .pop
  | .ret none line => .single line scope.height .nil ++ .single line (scope.height + 1) .ret
  | .ret (some value) line =>
    value.code scope.locals count scope.height ++ .single line (scope.height + 1) .ret
  | .ifElse condition line thenPart none =>
    let a := condition.code scope.locals count scope.height
    let b := thenPart.code scope (count + a.constants.length)
    a ++ .single line (scope.height + 1) (.jumpIfFalse (operandWord (thenPart.length + 4))) ++
      .single line (scope.height + 1) .pop ++ b ++
      .single thenPart.endLine scope.height (.jump (operandWord 1)) ++
      .single thenPart.endLine (scope.height + 1) .pop
  | .ifElse condition line thenPart (some elsePart) =>
    let a := condition.code scope.locals count scope.height
    let b := thenPart.code scope (count + a.constants.length)
    let d := elsePart.code scope (count + a.constants.length + b.constants.length)
    a ++ .single line (scope.height + 1) (.jumpIfFalse (operandWord (thenPart.length + 4))) ++
      .single line (scope.height + 1) .pop ++ b ++
      .single thenPart.endLine scope.height (.jump (operandWord (1 + elsePart.length))) ++
      .single thenPart.endLine (scope.height + 1) .pop ++ d
  | .whileLoop condition line body =>
    let a := condition.code scope.locals count scope.height
    let b := body.code scope (count + a.constants.length)
    a ++ .single line (scope.height + 1) (.jumpIfFalse (operandWord (body.length + 4))) ++
      .single line (scope.height + 1) .pop ++ b ++
      .single body.endLine scope.height (.loop (operandWord (condition.length + 4 + body.length + 3))) ++
      .single body.endLine (scope.height + 1) .pop
  | .forLoop initializer condition line increment body =>
    let a := initializer.code scope.inner count
    let inside := scope.inner.after initializer.name?
    let rest := Stmt.incrementLength increment + body.length + 3
    let b := Stmt.conditionCode inside.locals (count + a.constants.length) inside.height line rest condition
    let d := Stmt.incrementCode inside.locals (count + a.constants.length + b.constants.length)
      inside.height line
      (Stmt.conditionLength condition) increment
    let e := body.code inside (count + a.constants.length + b.constants.length + d.constants.length)
    a ++ b ++ d ++ e ++
      .single body.endLine inside.height
        (.loop (operandWord (Stmt.roundLength condition increment body.length))) ++
      Stmt.exitCode body.endLine inside.height condition ++
      .pops body.endLine scope.height (inside.height - scope.height)
  | .block declarations line =>
    Decl.codes scope.inner count declarations ++
      .pops line scope.height (declarations.filterMap Decl.name?).length

/-- The code of a declaration. The value of a local is left on the stack. -/
def Decl.code (scope : Scope) (count : Nat) : Decl → Fragment
  | .var v => v.code scope count
  | .function name routine =>
    if scope.depth = 0 then
      .pool (.string name) ++ .pool (.function (routine.function (some name))) ++
        .single routine.line scope.height (.constant (operandByte (count + 1))) ++
        .single routine.line (scope.height + 1) (.defineGlobal (operandByte count))
    else
      .pool (.function (routine.function (some name))) ++
        .single routine.line scope.height (.constant (operandByte count))
  | .statement s => s.code scope count

/-- The code of declarations, each in the scope after those before it. -/
def Decl.codes (scope : Scope) (count : Nat) : List Decl → Fragment
  | [] => {}
  | d :: ds =>
    let a := d.code scope count
    a ++ Decl.codes (scope.after d.name?) (count + a.constants.length) ds

/-- The compiled function of a routine: its body, and a return without a result at its end. -/
def Routine.function (name : Option String) : Routine → Function
  | ⟨_, parameters, body, line⟩ =>
    let scope := Scope.ofRoutine name parameters
    let a := Decl.codes scope 0 body ++ .single line (scope.afterAll body).height .nil ++
      .single line ((scope.afterAll body).height + 1) .ret
    { arity := operandByte parameters.length
      chunk := { code := a.bytes.toArray, lines := a.lines.toArray, constants := a.constants }
      name }

end

/-! ### Sizes -/

theorem Literal.size_code (literal : Literal) (line : UInt32) (count height : Nat) :
    (literal.code line count height).size = (Expr.literal literal line).length := by
  cases literal with
  | nil => rfl
  | bool b => cases b <;> rfl
  | number bits => rfl
  | string text => rfl

theorem BinaryOp.size_code (op : BinaryOp) (line : UInt32) (height : Nat) :
    (op.code line height).size = if op.negated then 2 else 1 := by
  cases op <;> rfl

namespace Expr

mutual

theorem size_code (locals : List Local) (count height : Nat) :
    ∀ e : Expr, (e.code locals count height).size = e.length
  | literal value line => value.size_code line count height
  | mention name line => by
    rw [code]
    split <;> rfl
  | assign name value => by
    rw [code, length]
    split
    · rw [Fragment.size_append, size_code locals count height value]
      rfl
    · rw [Fragment.size_append, Fragment.size_append, size_code locals (count + 1) height value,
        Fragment.size_pool, Nat.zero_add]
      rfl
  | group inner _ => by
    rw [code, length, size_code locals count height inner]
  | unary op operand => by
    rw [code, length, Fragment.size_append, size_code locals count height operand]
    cases op <;> rfl
  | binary op left right => by
    simp only [code, length, Fragment.size_append, size_code, BinaryOp.size_code]
  | and left line right => by
    simp only [code, length, Fragment.size_append, Fragment.size_single, size_code, Instruction.size,
      Instruction.opcode, Opcode.width]
  | or left line right => by
    simp only [code, length, Fragment.size_append, Fragment.size_single, size_code, Instruction.size,
      Instruction.opcode, Opcode.width]
  | call callee arguments line => by
    simp only [code, length, Fragment.size_append, Fragment.size_single, size_code, size_codes,
      Instruction.size, Instruction.opcode, Opcode.width]

theorem size_codes (locals : List Local) (count height : Nat) :
    ∀ es : List Expr, (codes locals count height es).size = lengths es
  | [] => rfl
  | e :: es => by
    simp only [codes, lengths, Fragment.size_append, size_code, size_codes]

end

end Expr

theorem Variable.size_valueCode (locals : List Local) (count height : Nat) (v : Variable) :
    (v.valueCode locals count height).size = v.valueLength := by
  unfold valueCode valueLength
  split <;> rename_i h
  · rw [h]
    rfl
  · rw [h, Expr.size_code]
    rfl

theorem Variable.size_code (scope : Scope) (count : Nat) (v : Variable) :
    (v.code scope count).size = v.length (scope.depth == 0) := by
  unfold code length
  split <;> rename_i h
  · simp [h, size_valueCode, Instruction.size, Instruction.opcode, Opcode.width]
  · simp [h, size_valueCode]

theorem Initializer.size_code (scope : Scope) (count : Nat) (i : Initializer) (h : scope.depth ≠ 0) :
    (i.code scope count).size = i.length := by
  cases i with
  | empty => rfl
  | var v => rw [code, length, Variable.size_code, beq_false_of_ne h]
  | expression value line =>
    simp [code, length, Expr.size_code, Instruction.size, Instruction.opcode, Opcode.width]

namespace Stmt

theorem size_conditionCode (locals : List Local) (count height : Nat) (line : UInt32) (rest : Nat)
    (condition : Option Expr) :
    (conditionCode locals count height line rest condition).size = conditionLength condition := by
  cases condition with
  | none => rfl
  | some e => simp [conditionCode, conditionLength, Expr.size_code, Instruction.size, Instruction.opcode,
      Opcode.width]

theorem size_incrementCode (locals : List Local) (count height : Nat) (line : UInt32) (conditionLength : Nat)
    (increment : Option (Expr × UInt32)) :
    (incrementCode locals count height line conditionLength increment).size = incrementLength increment := by
  cases increment with
  | none => rfl
  | some e =>
    simp [incrementCode, incrementLength, Expr.size_code, Instruction.size, Instruction.opcode, Opcode.width]
    omega

theorem size_exitCode (line : UInt32) (height : Nat) (condition : Option Expr) :
    (exitCode line height condition).size = if condition.isSome then 1 else 0 := by
  cases condition <;> rfl

end Stmt

theorem Scope.height_after_sub (scope : Scope) (name : Option String) :
    (scope.inner.after name).height - scope.height = if name.isSome then 1 else 0 := by
  cases name <;> simp [after, declare, inner, height]

mutual

theorem Stmt.size_code (scope : Scope) (count : Nat) : ∀ s : Stmt, (s.code scope count).size = s.length
  | .print value line => by
    simp [Stmt.code, Stmt.length, Expr.size_code, Instruction.size, Instruction.opcode, Opcode.width]
  | .expression value line => by
    simp [Stmt.code, Stmt.length, Expr.size_code, Instruction.size, Instruction.opcode, Opcode.width]
  | .ret none line => rfl
  | .ret (some value) line => by
    simp [Stmt.code, Stmt.length, Expr.size_code, Instruction.size, Instruction.opcode, Opcode.width]
  | .ifElse condition line thenPart none => by
    simp [Stmt.code, Stmt.length, Expr.size_code, Stmt.size_code scope _ thenPart, Instruction.size,
      Instruction.opcode, Opcode.width]
    omega
  | .ifElse condition line thenPart (some elsePart) => by
    simp [Stmt.code, Stmt.length, Expr.size_code, Stmt.size_code scope _ thenPart,
      Stmt.size_code scope _ elsePart, Instruction.size, Instruction.opcode, Opcode.width]
    omega
  | .whileLoop condition line body => by
    simp [Stmt.code, Stmt.length, Expr.size_code, Stmt.size_code scope _ body, Instruction.size,
      Instruction.opcode, Opcode.width]
    omega
  | .forLoop initializer condition line increment body => by
    simp only [Stmt.code, Stmt.length, Fragment.size_append, Fragment.size_single, Fragment.size_pops,
      Stmt.size_code _ _ body,
      Initializer.size_code scope.inner count initializer (Nat.succ_ne_zero _), Stmt.size_conditionCode,
      Stmt.size_incrementCode,
      Stmt.size_exitCode, Scope.height_after_sub, Instruction.size, Instruction.opcode, Opcode.width]
  | .block declarations line => by
    rw [Stmt.code, Stmt.length, Fragment.size_append, Fragment.size_pops,
      Decl.size_codes scope.inner count declarations]
    rfl

theorem Decl.size_code (scope : Scope) (count : Nat) :
    ∀ d : Decl, (d.code scope count).size = d.length (scope.depth == 0)
  | .var v => v.size_code scope count
  | .function name routine => by
    rw [Decl.code, Decl.length]
    split <;> rename_i h
    · simp [h, Instruction.size, Instruction.opcode, Opcode.width]
    · simp [h, Instruction.size, Instruction.opcode, Opcode.width]
  | .statement s => s.size_code scope count

theorem Decl.size_codes (scope : Scope) (count : Nat) :
    ∀ ds : List Decl, (Decl.codes scope count ds).size = Decl.lengths (scope.depth == 0) ds
  | [] => rfl
  | d :: ds => by
    rw [Decl.codes, Decl.lengths, Fragment.size_append, Decl.size_code scope count d, Decl.size_codes _ _ ds,
      Scope.depth_after]

end

end Lox
