import Lox.Proofs.Flow.Function
import Lox.Proofs.Meaning
import Lox.Proofs.Machine.Discipline

/-! # Values of trees and of machines

The functions that a program declares are constants of its compiled functions, so each declaration has an
object in the machine. A library says which declarations there are and which object each of them is; the
values of an evaluation are then values of the machine. -/

namespace Lox

/-! ### Declared functions -/

/-- A function that is declared in a routine, with the index of its constant. -/
structure Declared where
  index : Nat
  name : String
  routine : Routine

mutual

/-- The functions that a statement declares, but not those inside them. -/
def Stmt.declared (scope : Scope) (count : Nat) : Stmt → List Declared
  | .print _ _ | .expression _ _ | .ret _ _ => []
  | .ifElse condition _ thenPart none =>
    thenPart.declared scope (count + (condition.code scope.locals count scope.height).constants.length)
  | .ifElse condition _ thenPart (some elsePart) =>
    let first := count + (condition.code scope.locals count scope.height).constants.length
    thenPart.declared scope first ++ elsePart.declared scope
      (first + (thenPart.code scope first).constants.length)
  | .whileLoop condition _ body =>
    body.declared scope (count + (condition.code scope.locals count scope.height).constants.length)
  | .forLoop initializer condition line increment body =>
    let inside := scope.inner.after initializer.name?
    let first := count + (initializer.code scope.inner count).constants.length
    let rest := Stmt.incrementLength increment + body.length + 3
    let second :=
      first + (Stmt.conditionCode inside.locals first inside.height line rest condition).constants.length
    let third :=
      second + (Stmt.incrementCode inside.locals second inside.height line (Stmt.conditionLength condition)
      increment).constants.length
    body.declared inside third
  | .block declarations _ => Decl.declaredAll scope.inner count declarations

/-- The functions that a declaration declares. -/
def Decl.declared (scope : Scope) (count : Nat) : Decl → List Declared
  | .var _ => []
  | .function name routine => [⟨if scope.depth = 0 then count + 1 else count, name, routine⟩]
  | .statement s => s.declared scope count

/-- The functions that declarations declare. -/
def Decl.declaredAll (scope : Scope) (count : Nat) : List Decl → List Declared
  | [] => []
  | d :: ds => d.declared scope count ++
      Decl.declaredAll (scope.after d.name?) (count + (d.code scope count).constants.length) ds

end

/-- The functions that a routine declares. -/
def Routine.declared (name : Option String) (r : Routine) : List Declared :=
  Decl.declaredAll (Scope.ofRoutine name r.parameters) 0 r.body

namespace Tree

/-! ### Libraries -/

/-- Declarations of legal routines, each of which is an object of its own in the machine. -/
structure Library where
  /-- The object of a declaration, by its origin and its place. -/
  object : (origin place : Nat) → ObjectId
  Holds : (origin : Nat) → (name : Option String) → Routine → Prop
  legal : ∀ {origin name r}, Holds origin name r → r.Legal name
  injective : ∀ {origin name r origin' name' r'}, Holds origin name r → Holds origin' name' r' →
    object origin r.place = object origin' r'.place → origin = origin' ∧ r.place = r'.place
  inside : ∀ {origin name r}, Holds origin name r → ∀ d ∈ r.declared name,
    Holds origin (some d.name) d.routine ∧ object origin d.routine.place = (object origin r.place).child d.index

namespace Value

variable (L : Library)

/-- A value in the machine. -/
def compiled : Value → Lox.Value
  | nil => .nil
  | bool b => .bool b
  | number x => .number x
  | string s => .string s
  | function origin name r => .function (L.object origin r.place) (r.function name)
  | native id n => .native id n

/-- A value that is a function is in the library. -/
def Known : Value → Prop
  | function origin name r => L.Holds origin name r
  | _ => True

@[simp] theorem isFalsy_compiled (v : Value) : (v.compiled L).isFalsy = v.isFalsy := by
  cases v with
  | bool b => cases b <;> rfl
  | nil | number | string | function | native => rfl

theorem name_function (r : Routine) (name : Option String) : (r.function name).name = name := by
  obtain ⟨place, parameters, body, line⟩ := r
  rw [Routine.function]

theorem text_compiled (v : Value) : (v.compiled L).text = v.text := by
  cases v with
  | function origin name r =>
    show (r.function name).text = _
    rw [Function.text, name_function]
    cases name <;> rfl
  | nil | bool | number | string | native => rfl

/-- The machine sees two values as equal exactly if they are. -/
theorem equal_compiled {a b : Value} (ha : a.Known L) (hb : b.Known L) :
    (a.compiled L).equal (b.compiled L) = a.equal b := by
  cases a with
  | function origin name r =>
    cases b with
    | function origin' name' r' =>
      show (L.object origin r.place == L.object origin' r'.place) = (origin == origin' && r.place == r'.place)
      by_cases heq : L.object origin r.place = L.object origin' r'.place
      · obtain ⟨rfl, hplace⟩ := L.injective ha hb heq
        simp [hplace]
      · have hne : ¬(origin = origin' ∧ r.place = r'.place) := fun h => heq (by rw [h.1, h.2])
        rw [beq_false_of_ne heq]
        simpa using hne
    | nil | bool | number | string | native => rfl
  | nil | bool | number | string | native => cases b <;> rfl

end Value

end Tree

end Lox
