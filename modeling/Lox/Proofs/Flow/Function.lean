import Lox.Proofs.Compilation.Program
import Lox.Proofs.Flow.Statement

/-! # The functions of a program

Every function in the constants of a compiled script, however deep, is the function of a routine of the
program that obeys the static rules. What holds of the code of all routines so holds of every function that
the compiler makes; in particular, every one of them flows. -/

namespace Lox

/-- A routine obeys the static rules; a script has no parameters. -/
structure Routine.Legal (name : Option String) (r : Routine) : Prop where
  allowed : r.Allowed name
  script : name = none → r.parameters = []

/-- A function is the one of a legal routine. -/
def Function.Written (f : Function) : Prop := ∃ name r, Routine.Legal name r ∧ f = r.function name

/-! ### Functions in constants -/

theorem Constant.mem_functionsOf {g : Function} {constants : List Constant} :
    g ∈ Constant.functionsOf constants ↔ ∃ f, .function f ∈ constants ∧ g ∈ f.all := by
  induction constants with
  | nil => simp [Constant.functionsOf]
  | cons constant constants ih =>
    rw [Constant.functionsOf, List.mem_append, ih]
    constructor
    · rintro (h | ⟨f, hf, hg⟩)
      · cases constant with
        | function f => exact ⟨f, List.mem_cons_self, h⟩
        | nil | bool | number | string | native => cases h
      · exact ⟨f, List.mem_cons_of_mem _ hf, hg⟩
    · rintro ⟨f, hf, hg⟩
      rcases List.mem_cons.mp hf with rfl | hf
      · exact Or.inl hg
      · exact Or.inr ⟨f, hf, hg⟩

theorem Function.mem_all {f g : Function} : g ∈ f.all ↔ g = f ∨ ∃ h, .function h ∈ f.chunk.constants ∧
    g ∈ h.all := by
  obtain ⟨arity, ⟨code, lines, constants⟩, name⟩ := f
  rw [Function.all, Chunk.functions, List.mem_cons, Constant.mem_functionsOf]

theorem Function.mem_all_self (f : Function) : f ∈ f.all := Function.mem_all.mpr (Or.inl rfl)

mutual

theorem Function.mem_all_trans {f g : Function} (hf : f ∈ g.all) : ∀ h : Function, g ∈ h.all → f ∈ h.all
  | ⟨arity, chunk, name⟩, hg => by
    rw [Function.all] at hg
    rcases List.mem_cons.mp hg with rfl | hg
    · exact hf
    · rw [Function.all]
      exact List.mem_cons_of_mem _ (Chunk.mem_functions_trans hf chunk hg)

theorem Chunk.mem_functions_trans {f g : Function} (hf : f ∈ g.all) : ∀ chunk : Chunk, g ∈ chunk.functions →
    f ∈ chunk.functions
  | ⟨_, _, constants⟩, hg => Constant.mem_functionsOf_trans hf constants hg

theorem Constant.mem_functionsOf_trans {f g : Function} (hf : f ∈ g.all) : ∀ constants : List Constant,
    g ∈ Constant.functionsOf constants → f ∈ Constant.functionsOf constants
  | [], hg => absurd hg List.not_mem_nil
  | constant :: constants, hg => by
    rw [Constant.functionsOf] at hg ⊢
    rcases List.mem_append.mp hg with hg | hg
    · exact List.mem_append_left _ (Constant.mem_functions_trans hf constant hg)
    · exact List.mem_append_right _ (Constant.mem_functionsOf_trans hf constants hg)

theorem Constant.mem_functions_trans {f g : Function} (hf : f ∈ g.all) : ∀ constant : Constant,
    g ∈ constant.functions → f ∈ constant.functions
  | .function h, hg => Function.mem_all_trans hf h hg
  | .nil, hg | .bool _, hg | .number _, hg | .string _, hg | .native _, hg => absurd hg List.not_mem_nil

end

/-- A constant that is a number or a text. -/
def Constant.Plain : Constant → Prop
  | .number _ | .string _ => True
  | .nil | .bool _ | .function _ | .native _ => False

mutual

theorem Expr.plain (locals : List Local) : ∀ (e : Expr) (count height : Nat),
    ∀ c ∈ (e.code locals count height).constants, c.Plain
  | .literal value line, count, height => by
    cases value with
    | bool b => cases b <;> simp [Expr.code, Literal.code]
    | nil | number | string => simp [Expr.code, Literal.code, Constant.Plain]
  | .mention name line, count, height => by
    rw [Expr.code]
    split <;> simp [Constant.Plain]
  | .assign name value, count, height => by
    rw [Expr.code]
    split
    · simpa using Expr.plain locals value count height
    · simpa [Constant.Plain] using Expr.plain locals value (count + 1) height
  | .group inner _, count, height => Expr.plain locals inner count height
  | .unary op operand, count, height => by
    simpa [Expr.code] using Expr.plain locals operand count height
  | .binary op left right, count, height => by
    have hop : (op.code right.endLine height).constants = [] := by cases op <;> rfl
    simp only [Expr.code, Fragment.constants_append, hop, List.append_nil, List.forall_mem_append]
    exact ⟨Expr.plain locals left _ _, Expr.plain locals right _ _⟩
  | .and left line right, count, height | .or left line right, count, height => by
    simp only [Expr.code, Fragment.constants_append, Fragment.constants_single, List.append_nil,
      List.forall_mem_append]
    exact ⟨Expr.plain locals left _ _, Expr.plain locals right _ _⟩
  | .call callee arguments line, count, height => by
    simp only [Expr.code, Fragment.constants_append, Fragment.constants_single, List.append_nil,
      List.forall_mem_append]
    exact ⟨Expr.plain locals callee _ _, Expr.plain_all locals arguments _ _⟩

theorem Expr.plain_all (locals : List Local) : ∀ (es : List Expr) (count height : Nat),
    ∀ c ∈ (Expr.codes locals count height es).constants, c.Plain
  | [], count, height => fun _ hc => absurd hc List.not_mem_nil
  | e :: es, count, height => by
    simp only [Expr.codes, Fragment.constants_append, List.forall_mem_append]
    exact ⟨Expr.plain locals e _ _, Expr.plain_all locals es _ _⟩

end

theorem Variable.plain (scope : Scope) (v : Variable) (count : Nat) : ∀ c ∈ (v.code scope count).constants,
    c.Plain := by
  have hvalue : ∀ locals count height, ∀ c ∈ (v.valueCode locals count height).constants, c.Plain := by
    intro locals count height
    unfold Variable.valueCode
    split
    · exact fun _ hc => absurd hc List.not_mem_nil
    · exact Expr.plain locals _ count height
  unfold Variable.code
  split
  · simpa [Constant.Plain] using hvalue _ _ _
  · exact hvalue _ _ _

theorem Initializer.plain (scope : Scope) (i : Initializer) (count : Nat) :
    ∀ c ∈ (i.code scope count).constants, c.Plain := by
  cases i with
  | empty => exact fun _ hc => absurd hc List.not_mem_nil
  | var v => exact v.plain scope count
  | expression value line => simpa [Initializer.code] using Expr.plain scope.locals value count scope.height

theorem Stmt.plain_condition (locals : List Local) (count height : Nat) (line : UInt32) (rest : Nat)
    (condition : Option Expr) : ∀ c ∈ (Stmt.conditionCode locals count height line rest condition).constants,
    c.Plain := by
  cases condition with
  | none => exact fun _ hc => absurd hc List.not_mem_nil
  | some e => simpa [Stmt.conditionCode] using Expr.plain locals e count height

theorem Stmt.plain_increment (locals : List Local) (count height : Nat) (line : UInt32) (length : Nat)
    (increment : Option (Expr × UInt32)) :
    ∀ c ∈ (Stmt.incrementCode locals count height line length increment).constants, c.Plain := by
  cases increment with
  | none => exact fun _ hc => absurd hc List.not_mem_nil
  | some clause => simpa [Stmt.incrementCode] using Expr.plain locals clause.1 count height

theorem Stmt.constants_exitCode (line : UInt32) (height : Nat) (condition : Option Expr) :
    (Stmt.exitCode line height condition).constants = [] := by
  cases condition <;> rfl

theorem Expr.function_not_mem (f : Function) (locals : List Local) (e : Expr) (count height : Nat) :
    .function f ∉ (e.code locals count height).constants := fun h => Expr.plain locals e count height _ h

theorem Variable.function_not_mem (f : Function) (scope : Scope) (v : Variable) (count : Nat) :
    .function f ∉ (v.code scope count).constants := fun h => v.plain scope count _ h

theorem Initializer.function_not_mem (f : Function) (scope : Scope) (i : Initializer) (count : Nat) :
    .function f ∉ (i.code scope count).constants := fun h => i.plain scope count _ h

theorem Stmt.function_not_mem_condition (f : Function) (locals : List Local) (count height : Nat)
    (line : UInt32) (rest : Nat) (condition : Option Expr) :
    .function f ∉ (Stmt.conditionCode locals count height line rest condition).constants :=
  fun h => Stmt.plain_condition locals count height line rest condition _ h

theorem Stmt.function_not_mem_increment (f : Function) (locals : List Local) (count height : Nat)
    (line : UInt32) (length : Nat) (increment : Option (Expr × UInt32)) :
    .function f ∉ (Stmt.incrementCode locals count height line length increment).constants :=
  fun h => Stmt.plain_increment locals count height line length increment _ h

/-! ### Functions of routines -/

mutual

theorem Stmt.written {isScript : Bool} : ∀ (s : Stmt) {scope : Scope} {count : Nat}, s.Allowed isScript scope →
    ∀ f, .function f ∈ (s.code scope count).constants → ∀ g ∈ f.all, g.Written
  | .print value line, scope, count, _, f, hf, g, hg
  | .expression value line, scope, count, _, f, hf, g, hg
  | .ret (some value) line, scope, count, _, f, hf, g, hg => by
    simp only [Stmt.code, Fragment.constants_append, Fragment.constants_single, List.append_nil] at hf
    exact absurd hf (Expr.function_not_mem f _ value _ _)
  | .ret none line, scope, count, _, f, hf, g, hg => absurd hf List.not_mem_nil
  | .ifElse condition line thenPart none, scope, count, hallowed, f, hf, g, hg => by
    simp only [Stmt.code, Fragment.constants_append, Fragment.constants_single, List.append_nil,
      List.mem_append] at hf
    rcases hf with hf | hf
    · exact absurd hf (Expr.function_not_mem f _ condition _ _)
    · exact thenPart.written hallowed.2.1 f hf g hg
  | .ifElse condition line thenPart (some elsePart), scope, count, hallowed, f, hf, g, hg => by
    simp only [Stmt.code, Fragment.constants_append, Fragment.constants_single, List.append_nil,
      List.mem_append] at hf
    rcases hf with (hf | hf) | hf
    · exact absurd hf (Expr.function_not_mem f _ condition _ _)
    · exact thenPart.written hallowed.2.1 f hf g hg
    · exact elsePart.written hallowed.2.2.1 f hf g hg
  | .whileLoop condition line body, scope, count, hallowed, f, hf, g, hg => by
    simp only [Stmt.code, Fragment.constants_append, Fragment.constants_single, List.append_nil,
      List.mem_append] at hf
    rcases hf with hf | hf
    · exact absurd hf (Expr.function_not_mem f _ condition _ _)
    · exact body.written hallowed.2.1 f hf g hg
  | .forLoop initializer condition line increment body, scope, count, hallowed, f, hf, g, hg => by
    simp only [Stmt.code, Fragment.constants_append, Fragment.constants_single, Fragment.constants_pops,
      Stmt.constants_exitCode, List.append_nil, List.mem_append] at hf
    rcases hf with ((hf | hf) | hf) | hf
    · exact absurd hf (Initializer.function_not_mem f _ initializer _)
    · exact absurd hf (Stmt.function_not_mem_condition f _ _ _ _ _ condition)
    · exact absurd hf (Stmt.function_not_mem_increment f _ _ _ _ _ increment)
    · exact body.written hallowed.2.2.2.1 f hf g hg
  | .block declarations line, scope, count, hallowed, f, hf, g, hg => by
    simp only [Stmt.code, Fragment.constants_append, Fragment.constants_pops, List.append_nil] at hf
    exact Decl.writtenAll declarations hallowed f hf g hg

theorem Decl.written {isScript : Bool} : ∀ (d : Decl) {scope : Scope} {count : Nat}, d.Allowed isScript scope →
    ∀ f, .function f ∈ (d.code scope count).constants → ∀ g ∈ f.all, g.Written
  | .var v, scope, count, _, f, hf, g, hg => absurd hf (v.function_not_mem f scope count)
  | .function name r, scope, count, hallowed, f, hf, g, hg => by
    have heq : f = r.function (some name) := by
      rw [Decl.code] at hf
      split at hf <;> simpa using hf
    rw [heq] at hg
    exact r.written ⟨hallowed.2, fun h => by cases h⟩ g hg
  | .statement s, scope, count, hallowed, f, hf, g, hg => s.written hallowed f hf g hg

theorem Decl.writtenAll {isScript : Bool} : ∀ (ds : List Decl) {scope : Scope} {count : Nat},
    Decl.AllAllowed isScript scope ds → ∀ f, .function f ∈ (Decl.codes scope count ds).constants →
      ∀ g ∈ f.all, g.Written
  | [], scope, count, _, f, hf, g, hg => absurd hf List.not_mem_nil
  | d :: ds, scope, count, hallowed, f, hf, g, hg => by
    simp only [Decl.codes, Fragment.constants_append, List.mem_append] at hf
    rcases hf with hf | hf
    · exact d.written hallowed.1 f hf g hg
    · exact Decl.writtenAll ds hallowed.2 f hf g hg

/-- The functions in the function of a legal routine are those of legal routines. -/
theorem Routine.written : ∀ (r : Routine) {name : Option String}, r.Legal name → ∀ g ∈ (r.function name).all,
    g.Written
  | ⟨place, parameters, body, line⟩, name, hlegal, g, hg => by
    rcases Function.mem_all.mp hg with rfl | ⟨f, hf, hg⟩
    · exact ⟨name, ⟨place, parameters, body, line⟩, hlegal, rfl⟩
    · have hallowed := hlegal.allowed
      rw [Routine.Allowed] at hallowed
      rw [Routine.function] at hf
      simp only [Fragment.constants_append, Fragment.constants_single, List.append_nil] at hf
      exact Decl.writtenAll body hallowed.2.2.1 f hf g hg

end

/-- A fragment is the whole code of a function, flows at its own heights and ends with a return. -/
structure Fragment.Makes (code : Fragment) (f : Function) : Prop where
  chunk : f.chunk = { code := code.bytes.toArray, lines := code.lines.toArray, constants := code.constants }
  room : f.chunk.constants.length ≤ Chunk.maxConstants
  entry : Item.heightAt code.items 0 = some (f.arity.toNat + 1)
  flows : code.Flows f.chunk (Item.heightAt code.items) 0
  last : ∃ before line height, code = before ++ .single line height .ret

/-- The whole code of a routine: its body, and a return without a result at its end. -/
def Routine.code (name : Option String) : Routine → Fragment
  | ⟨_, parameters, body, line⟩ =>
    let scope := Scope.ofRoutine name parameters
    Decl.codes scope 0 body ++ .single line (scope.afterAll body).height .nil ++
      .single line ((scope.afterAll body).height + 1) .ret

/-- The code of a legal routine makes its function. -/
theorem Routine.Legal.makes_code {name : Option String} {r : Routine} (h : r.Legal name) :
    (r.code name).Makes (r.function name) := by
  obtain ⟨place, parameters, body, line⟩ := r
  obtain ⟨hallowed, hscript⟩ := h
  rw [Routine.Allowed] at hallowed
  obtain ⟨hlength, -, hbody, hroom⟩ := hallowed
  let scope := Scope.ofRoutine name parameters
  have hheight : scope.height = (operandByte parameters.length).toNat + 1 := by
    rw [toNat_operandByte (by omega)]
    cases name with
    | none =>
      have hnone : parameters = [] := hscript rfl
      rw [hnone]
      rfl
    | some name => simp [scope, Scope.ofRoutine, Scope.height]
  have hroomy : scope.Roomy := by
    have hsmall : scope.height ≤ 256 := by
      rw [hheight, toNat_operandByte (by omega)]
      omega
    exact hsmall
  let code := Routine.code name ⟨place, parameters, body, line⟩
  let chunk : Chunk := { code := code.bytes.toArray, lines := code.lines.toArray, constants := code.constants }
  have hstands : code.Stands chunk (Item.heightAt code.items) 0 0 :=
    ⟨Item.along_heightAt code.items, Constant.pooled_self code.constants⟩
  have hroom' : chunk.constants.length ≤ Chunk.maxConstants := by
    simpa [chunk, code, Routine.code] using hroom
  obtain ⟨hhead, hret⟩ := Fragment.stands_append.mp hstands
  obtain ⟨hstands', hnil⟩ := Fragment.stands_append.mp hhead
  have hnil' := Fragment.stands_single.mp hnil
  have hret' := Fragment.stands_single.mp hret
  rw [Decl.size_codes, Nat.zero_add] at hnil'
  obtain ⟨hentry, hflows⟩ := Decl.flowsAll hroom' body hbody hroomy hstands' (by rw [Nat.zero_add]; exact hnil')
  have hall : code.Flows chunk (Item.heightAt code.items) 0 := by
    refine Fragment.flows_append.mpr ⟨Fragment.flows_append.mpr ⟨hflows, ?_⟩, ?_⟩
    · refine Fragment.flows_straight (Nat.zero_le _) trivial rfl ?_
      rw [Nat.zero_add, Fragment.size_append, Fragment.size_single] at hret'
      rw [Nat.zero_add]
      exact hret'
    · exact Fragment.flows_single.mpr ⟨Nat.le_add_left 1 _, trivial, fun p hp => absurd hp List.not_mem_nil⟩
  refine ⟨rfl, hroom', ?_, hall, _, _, _, rfl⟩
  rw [hentry, hheight]
  rfl

theorem Routine.Legal.makes {name : Option String} {r : Routine} (h : r.Legal name) :
    ∃ code : Fragment, code.Makes (r.function name) := ⟨_, h.makes_code⟩

/-- The reader finds the instructions of the code where they stand. -/
theorem Fragment.Makes.reads {code : Fragment} {f : Function} (h : code.Makes f) :
    code.Along (fun offset item => Instruction.read f.chunk.code offset = .instruction item.instruction) 0 := by
  rw [h.chunk]
  exact Item.along_read code.items

/-- The heights of the instructions are depths at which a function flows that its code makes. -/
theorem Fragment.Makes.flowsFunction {code : Fragment} {f : Function} (h : code.Makes f) :
    f.Flows (Item.heightAt code.items) := by
  refine ⟨h.entry, fun {offset height} hdepth => ?_⟩
  obtain ⟨item, rfl, hread', hflows'⟩ := Item.Along.exists_of_heightAt (h.reads.and h.flows) hdepth
  rw [Nat.zero_add] at hread' hflows'
  exact ⟨item.instruction, hread', hflows'⟩

/-! ### Routines of the host -/

mutual

theorem Stmt.native_not_mem (n : Native) : ∀ (s : Stmt) (scope : Scope) (count : Nat),
    .native n ∉ (s.code scope count).constants
  | .print value line, scope, count, h
  | .expression value line, scope, count, h
  | .ret (some value) line, scope, count, h => by
    simp only [Stmt.code, Fragment.constants_append, Fragment.constants_single, List.append_nil] at h
    exact Expr.plain _ value _ _ _ h
  | .ret none line, scope, count, h => absurd h List.not_mem_nil
  | .ifElse condition line thenPart none, scope, count, h => by
    simp only [Stmt.code, Fragment.constants_append, Fragment.constants_single, List.append_nil,
      List.mem_append] at h
    rcases h with h | h
    · exact Expr.plain _ condition _ _ _ h
    · exact thenPart.native_not_mem n _ _ h
  | .ifElse condition line thenPart (some elsePart), scope, count, h => by
    simp only [Stmt.code, Fragment.constants_append, Fragment.constants_single, List.append_nil,
      List.mem_append] at h
    rcases h with (h | h) | h
    · exact Expr.plain _ condition _ _ _ h
    · exact thenPart.native_not_mem n _ _ h
    · exact elsePart.native_not_mem n _ _ h
  | .whileLoop condition line body, scope, count, h => by
    simp only [Stmt.code, Fragment.constants_append, Fragment.constants_single, List.append_nil,
      List.mem_append] at h
    rcases h with h | h
    · exact Expr.plain _ condition _ _ _ h
    · exact body.native_not_mem n _ _ h
  | .forLoop initializer condition line increment body, scope, count, h => by
    simp only [Stmt.code, Fragment.constants_append, Fragment.constants_single, Fragment.constants_pops,
      Stmt.constants_exitCode, List.append_nil, List.mem_append] at h
    rcases h with ((h | h) | h) | h
    · exact initializer.plain _ _ _ h
    · exact Stmt.plain_condition _ _ _ _ _ condition _ h
    · exact Stmt.plain_increment _ _ _ _ _ increment _ h
    · exact body.native_not_mem n _ _ h
  | .block declarations line, scope, count, h => by
    simp only [Stmt.code, Fragment.constants_append, Fragment.constants_pops, List.append_nil] at h
    exact Decl.native_not_mem_all n declarations _ _ h

theorem Decl.native_not_mem (n : Native) : ∀ (d : Decl) (scope : Scope) (count : Nat),
    .native n ∉ (d.code scope count).constants
  | .var v, scope, count, h => v.plain scope count _ h
  | .function name r, scope, count, h => by
    rw [Decl.code] at h
    split at h <;> simp at h
  | .statement s, scope, count, h => s.native_not_mem n scope count h

theorem Decl.native_not_mem_all (n : Native) : ∀ (ds : List Decl) (scope : Scope) (count : Nat),
    .native n ∉ (Decl.codes scope count ds).constants
  | [], scope, count, h => absurd h List.not_mem_nil
  | d :: ds, scope, count, h => by
    simp only [Decl.codes, Fragment.constants_append, List.mem_append] at h
    rcases h with h | h
    · exact d.native_not_mem n scope count h
    · exact Decl.native_not_mem_all n ds _ _ h

end

/-- No routine of the host is among the constants of a function that was written. -/
theorem Function.Written.native_not_mem {f : Function} (h : f.Written) (n : Native) :
    .native n ∉ f.chunk.constants := by
  obtain ⟨name, ⟨place, parameters, body, line⟩, -, rfl⟩ := h
  intro hn
  rw [Routine.function] at hn
  simp only [Fragment.constants_append, Fragment.constants_single, List.append_nil] at hn
  exact Decl.native_not_mem_all n body _ _ hn

/-! ### Compiled functions -/

/-- A value that was computed passes a test. -/
theorem exists_ok_of_any {ε α : Type} {x : Except ε α} {test : α → Bool} (h : x.toOption.any test = true) :
    ∃ a, x = .ok a ∧ test a = true := by
  cases x with
  | error reason => cases h
  | ok a => exact ⟨a, rfl, h⟩

/-- A function is the script of a text that compiles, or inside one. -/
def Function.Compiled (g : Function) : Prop := ∃ source script, compile source = .ok script ∧ g ∈ script.all

theorem Function.Compiled.written {g : Function} (h : g.Compiled) : g.Written := by
  obtain ⟨source, script, hcompile, hg⟩ := h
  obtain ⟨r, hprogram, hallowed, rfl⟩ := (compile_iff_program source script).mp hcompile
  obtain ⟨ds, last, -, -, rfl⟩ := Grammar.program_iff.mp hprogram
  exact Routine.written _ ⟨hallowed, fun _ => rfl⟩ g hg

theorem Function.Written.flows {f : Function} (h : f.Written) : ∃ depth, f.Flows depth := by
  obtain ⟨name, r, hlegal, rfl⟩ := h
  exact ⟨_, hlegal.makes_code.flowsFunction⟩

theorem Function.Compiled.constant {f g : Function} (h : f.Compiled) (hg : .function g ∈ f.chunk.constants) :
    g.Compiled := by
  obtain ⟨source, script, hcompile, hf⟩ := h
  exact ⟨source, script, hcompile,
    Function.mem_all_trans (Function.mem_all.mpr (Or.inr ⟨g, hg, g.mem_all_self⟩)) script hf⟩

end Lox
