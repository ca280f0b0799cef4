import Lox.Compile

/-! # What all of a compilation keeps

The compiler changes its state in six ways: it changes the function that is being compiled, notes a finished
function, reports a diagnostic at the last token or at the one at hand, accepts a token, or ends a panic. A
property that these keep is kept by every part of a compilation, and what ends no panic keeps a property that
the others keep. The first such property is that there is a diagnostic. -/

namespace Lox.Compiler

/-- A property of the compiler's state that every elementary change keeps, but for the end of a panic. -/
structure Steady (P : Compiler → Prop) : Prop where
  body : ∀ c b, P c → P { c with body := b }
  finished : ∀ c functions, P c → P { c with finished := functions }
  reportLast : ∀ c cause, P c → P (c.report cause)
  reportHere : ∀ c cause, P c → P (c.reportHere cause)
  accept : ∀ c, P c → P c.accept

/-- A property of the compiler's state that every elementary change keeps. -/
structure Stable (P : Compiler → Prop) : Prop extends Steady P where
  calm : ∀ c, P c → P { c with panicking := false }

theorem skipStatement_of_accept {P : Compiler → Prop} (haccept : ∀ c, P c → P c.accept) {c : Compiler} (h : P c)
    (fuel : Nat) : P (c.skipStatement fuel) := by
  induction fuel generalizing c with
  | zero => exact h
  | succ fuel ih =>
    unfold skipStatement
    split
    · exact h
    · exact ih (haccept c h)

namespace Steady

variable {P : Compiler → Prop} (S : Steady P) {c : Compiler}

include S

/-! ### Tokens and code -/

theorem expect (h : P c) (kind : Token.Kind) (what : Diagnostic.Expectation) : P (c.expect kind what) := by
  unfold Compiler.expect
  split
  · exact S.accept c h
  · exact S.reportHere c _ h

theorem emit (h : P c) (instruction : Instruction) : P (c.emit instruction) := by
  unfold Compiler.emit
  generalize instruction.bytes = bytes
  induction bytes generalizing c with
  | nil => exact h
  | cons byte bytes ih => exact ih (S.body c _ h)

theorem emitAll (h : P c) (instructions : List Instruction) : P (instructions.foldl Compiler.emit c) := by
  induction instructions generalizing c with
  | nil => exact h
  | cons instruction instructions ih => exact ih (S.emit h instruction)

theorem emitBareReturn (h : P c) : P c.emitBareReturn := S.emit (S.emit h _) _

theorem addConstant (h : P c) (constant : Constant) : P (c.addConstant constant).2 := by
  unfold Compiler.addConstant
  split
  · exact S.body c _ h
  · exact S.reportLast c _ h

theorem emitConstant (h : P c) (constant : Constant) : P (c.emitConstant constant) :=
  S.emit (S.addConstant h constant) _

theorem openJump (h : P c) (jump : UInt16 → Instruction) : P (c.openJump jump).2 := S.emit h _

theorem closeJump (h : P c) (place : Nat) : P (c.closeJump place) := by
  unfold Compiler.closeJump
  dsimp only
  split
  · exact S.body c _ h
  · exact S.reportLast c _ h

theorem emitLoop (h : P c) (start : Nat) : P (c.emitLoop start) := by
  unfold Compiler.emitLoop
  have written : P (c.writeByte Opcode.loop.byte) := S.body c _ h
  refine S.body _ _ (S.body _ _ ?_)
  split
  · exact S.reportLast _ _ written
  · exact written

theorem finish (h : P c) : P c.finish.2 := by
  have returned : P c.emitBareReturn := S.emitBareReturn h
  unfold Compiler.finish
  dsimp only
  split
  · exact S.finished _ _ returned
  · exact returned

/-! ### Scopes and variables -/

theorem openScope (h : P c) : P c.openScope := S.body c _ h

theorem closeScope (h : P c) : P c.closeScope := by
  unfold Compiler.closeScope
  dsimp only
  generalize (c.body.locals.span _).1 = dropped
  have closed : P { c with body.depth := c.body.depth - 1, body.locals := (c.body.locals.span
      (Local.isWithin (c.body.depth - 1 + 1))).2 } := S.body c _ h
  generalize { c with body.depth := c.body.depth - 1, body.locals := (c.body.locals.span
      (Local.isWithin (c.body.depth - 1 + 1))).2 } = d at closed ⊢
  induction dropped generalizing d with
  | nil => exact closed
  | cons _ _ ih => exact ih _ (S.emit closed .pop)

theorem nameConstant (h : P c) (name : Token) : P (c.nameConstant name).2 := S.addConstant h _

theorem resolve (h : P c) (name : Token) : P (c.resolve name).2 := by
  unfold Compiler.resolve
  split
  · exact h
  · dsimp only
    split
    · exact S.reportLast c _ h
    · exact h

theorem addLocal (h : P c) (name : Token) : P (c.addLocal name) := by
  unfold Compiler.addLocal
  split
  · exact S.reportLast c _ h
  · exact S.body c _ h

theorem declare (h : P c) : P c.declare := by
  unfold Compiler.declare
  split
  · exact h
  · dsimp only
    split
    · exact S.addLocal (S.reportLast c _ h) _
    · exact S.addLocal h _

theorem declareName (h : P c) (what : Diagnostic.Expectation) : P (c.declareName what).2 := by
  have declared : P (c.expect .identifier what).declare := S.declare (S.expect h _ _)
  unfold Compiler.declareName
  dsimp only
  split
  · exact declared
  · exact S.nameConstant declared _

theorem completeLocal (h : P c) : P c.completeLocal := by
  unfold Compiler.completeLocal
  split
  · exact h
  · split
    · exact h
    · exact S.body c _ h

theorem define (h : P c) (global : UInt8) : P (c.define global) := by
  unfold Compiler.define
  split
  · exact S.completeLocal h
  · exact S.emit h _

/-! ### Expressions -/

section

variable {parse : Level → Compiler → Compiler} (hparse : ∀ level c, P c → P (parse level c))

include hparse

theorem mention (h : P c) (assignable : Bool) : P (Compiler.mention parse assignable c) := by
  have resolved := S.resolve h c.previous
  unfold Compiler.mention
  dsimp only
  split <;> rename_i heq
  · rw [heq] at resolved
    dsimp only
    split
    · exact S.emit (hparse _ _ (S.accept _ resolved)) _
    · exact S.emit resolved _
  · rw [heq] at resolved
    have named := S.nameConstant resolved c.previous
    dsimp only
    split
    · exact S.emit (hparse _ _ (S.accept _ named)) _
    · exact S.emit named _

theorem operand (h : P c) (assignable : Bool) : P (Compiler.operand parse assignable c) := by
  unfold Compiler.operand
  split
  · exact S.expect (hparse _ _ h) _ _
  · exact S.emit (hparse _ _ h) _
  · exact S.emit (hparse _ _ h) _
  · exact S.mention hparse h assignable
  · exact S.emitConstant h _
  · exact S.emitConstant h _
  · exact S.emit h _
  · exact S.emit h _
  · exact S.emit h _
  · exact h

theorem arguments (h : P c) (count : UInt8) (fuel : Nat) : P (Compiler.arguments parse count c fuel).2 := by
  induction fuel generalizing c count with
  | zero => exact h
  | succ fuel ih =>
    have parsed : P (parse .assignment c) := hparse _ _ h
    unfold Compiler.arguments
    dsimp only
    split
    · split
      · exact ih (S.accept _ (S.reportLast _ _ parsed)) _
      · exact S.reportLast _ _ parsed
    · split
      · exact ih (S.accept _ parsed) _
      · exact parsed

theorem callOperator (h : P c) (fuel : Nat) : P (Compiler.callOperator parse fuel c) := by
  unfold Compiler.callOperator
  by_cases hclose : c.sees .rightParen = true
  · rw [if_pos hclose]
    exact S.emit (S.expect h _ _) _
  · rw [if_neg hclose]
    exact S.emit (S.expect (S.arguments hparse h 0 fuel) _ _) _

theorem operator (h : P c) (fuel : Nat) : P (Compiler.operator parse fuel c) := by
  unfold Compiler.operator
  split
  · exact S.callOperator hparse h fuel
  · exact S.closeJump (hparse _ _ (S.emit (S.openJump h _) _)) _
  · exact S.closeJump (hparse _ _ (S.emit (S.closeJump (S.openJump (S.openJump h _) _) _) _)) _
  · exact S.emitAll (hparse _ _ h) _

theorem operators (h : P c) (level : Level) (fuel : Nat) : P (Compiler.operators parse level c fuel) := by
  induction fuel generalizing c with
  | zero => exact h
  | succ fuel ih =>
    unfold Compiler.operators
    split
    · exact ih (S.operator hparse (S.accept c h) fuel)
    · exact h

end

theorem expression_of_accept {fuel : Nat} (hexpression : ∀ level c, P c → P (Compiler.expression fuel level c))
    (haccept : P c.accept) (level : Level) : P (Compiler.expression (fuel + 1) level c) := by
  unfold Compiler.expression
  dsimp only
  split
  · have read := S.operators hexpression (S.operand hexpression haccept (level.rank ≤ Level.assignment.rank))
      level fuel
    split
    · exact S.reportLast _ _ (S.accept _ read)
    · exact read
  · exact S.reportLast _ _ haccept

theorem expression (fuel : Nat) (level : Level) (c : Compiler) (h : P c) :
    P (Compiler.expression fuel level c) := by
  induction fuel generalizing c level with
  | zero => exact h
  | succ fuel ih => exact S.expression_of_accept ih (S.accept c h) level

/-! ### Statements and declarations -/

section

variable {expr stmt decl : Compiler → Compiler}

theorem varDeclaration (hexpr : ∀ c, P c → P (expr c)) (h : P c) : P (Compiler.varDeclaration expr c) := by
  have named := S.declareName h .variableName
  unfold Compiler.varDeclaration
  dsimp only
  split
  · exact S.define (S.expect (hexpr _ (S.accept _ named)) _ _) _
  · exact S.define (S.expect (S.emit named _) _ _) _

theorem expressionStatement (hexpr : ∀ c, P c → P (expr c)) (h : P c) :
    P (Compiler.expressionStatement expr c) :=
  S.emit (S.expect (hexpr _ h) _ _) _

theorem returnStatement (hexpr : ∀ c, P c → P (expr c)) (h : P c) : P (Compiler.returnStatement expr c) := by
  have rest : ∀ d, P d → P (if d.sees .semicolon then d.accept.emitBareReturn
      else ((expr d).expect .semicolon .endReturn).emit .ret) := by
    intro d h
    split
    · exact S.emitBareReturn (S.accept d h)
    · exact S.emit (S.expect (hexpr d h) _ _) _
  unfold Compiler.returnStatement
  dsimp only
  split
  · exact rest _ (S.reportLast c _ h)
  · exact rest c h

theorem ifStatement (hexpr : ∀ c, P c → P (expr c)) (hstmt : ∀ c, P c → P (stmt c)) (h : P c) :
    P (Compiler.ifStatement expr stmt c) := by
  have condition := S.expect (hexpr _ (S.expect h .leftParen .openIf)) .rightParen .closeCondition
  have thenPart := hstmt _ (S.emit (S.openJump condition .jumpIfFalse) .pop)
  unfold Compiler.ifStatement
  dsimp only
  split
  · exact S.closeJump (hstmt _ (S.accept _ (S.emit (S.closeJump (S.openJump thenPart _) _) _))) _
  · exact S.closeJump (S.emit (S.closeJump (S.openJump thenPart _) _) _) _

theorem whileStatement (hexpr : ∀ c, P c → P (expr c)) (hstmt : ∀ c, P c → P (stmt c)) (h : P c) :
    P (Compiler.whileStatement expr stmt c) := by
  have condition := S.expect (hexpr _ (S.expect h .leftParen .openWhile)) .rightParen .closeCondition
  have body := hstmt _ (S.emit (S.openJump condition .jumpIfFalse) .pop)
  exact S.emit (S.closeJump (S.emitLoop body _) _) _

theorem forInitializer (hexpr : ∀ c, P c → P (expr c)) (h : P c) : P (Compiler.forInitializer expr c) := by
  unfold Compiler.forInitializer
  split
  · exact S.accept c h
  · split
    · exact S.varDeclaration hexpr (S.accept c h)
    · exact S.expressionStatement hexpr h

theorem forCondition (hexpr : ∀ c, P c → P (expr c)) (h : P c) : P (Compiler.forCondition expr c).2 := by
  unfold Compiler.forCondition
  split
  · exact S.accept c h
  · exact S.emit (S.openJump (S.expect (hexpr _ h) _ _) _) _

theorem forIncrement (hexpr : ∀ c, P c → P (expr c)) (h : P c) (start : Nat) :
    P (Compiler.forIncrement expr start c).2 := by
  unfold Compiler.forIncrement
  split
  · exact S.accept c h
  · exact S.closeJump (S.emitLoop (S.expect (S.emit (hexpr _ (S.openJump h _)) _) _ _) _) _

theorem forStatement (hexpr : ∀ c, P c → P (expr c)) (hstmt : ∀ c, P c → P (stmt c)) (h : P c) :
    P (Compiler.forStatement expr stmt c) := by
  have first := S.forInitializer hexpr (S.expect (S.openScope h) .leftParen .openFor)
  have third := fun start => S.forIncrement hexpr (S.forCondition hexpr first) start
  have body := fun start again => S.emitLoop (hstmt _ (third start)) again
  unfold Compiler.forStatement
  dsimp only
  split
  · exact S.closeScope (S.emit (S.closeJump (body _ _) _) _)
  · exact S.closeScope (body _ _)

theorem block (hdecl : ∀ c, P c → P (decl c)) (h : P c) (fuel : Nat) : P (Compiler.block decl c fuel) := by
  induction fuel generalizing c with
  | zero => exact h
  | succ fuel ih =>
    unfold Compiler.block
    split
    · exact S.expect h _ _
    · exact ih (hdecl _ h)

/-- A statement begins with a word that is accepted, or it is an expression statement. -/
theorem anyStatement_of_accept (hexpr : ∀ c, P c → P (expr c)) (hstmt : ∀ c, P c → P (stmt c)) {fuel : Nat}
    (hblock : ∀ c, P c → P (Compiler.block decl c fuel))
    (haccept : P c.accept) (hlast : P (Compiler.expressionStatement expr c)) :
    P (Compiler.anyStatement expr stmt decl fuel c) := by
  unfold Compiler.anyStatement
  split
  · exact S.emit (S.expect (hexpr _ haccept) _ _) _
  · exact S.forStatement hexpr hstmt haccept
  · exact S.ifStatement hexpr hstmt haccept
  · exact S.returnStatement hexpr haccept
  · exact S.whileStatement hexpr hstmt haccept
  · exact S.closeScope (hblock _ (S.openScope haccept))
  · exact hlast

theorem anyStatement (hexpr : ∀ c, P c → P (expr c)) (hstmt : ∀ c, P c → P (stmt c))
    (hdecl : ∀ c, P c → P (decl c))
    (h : P c) (fuel : Nat) : P (Compiler.anyStatement expr stmt decl fuel c) :=
  S.anyStatement_of_accept hexpr hstmt (fun _ h => S.block hdecl h fuel) (S.accept c h)
    (S.expressionStatement hexpr h)

theorem parameters (h : P c) (fuel : Nat) : P (Compiler.parameters c fuel) := by
  induction fuel generalizing c with
  | zero => exact h
  | succ fuel ih =>
    have rest : ∀ d, P d →
        P (if ((d.declareName .parameterName).2.define (d.declareName .parameterName).1).sees .comma
        then Compiler.parameters ((d.declareName .parameterName).2.define
          (d.declareName .parameterName).1).accept fuel
        else (d.declareName .parameterName).2.define (d.declareName .parameterName).1) := by
      intro d h
      have defined := S.define (S.declareName h .parameterName) (d.declareName .parameterName).1
      split
      · exact ih (S.accept _ defined)
      · exact defined
    unfold Compiler.parameters
    dsimp only
    split
    · exact rest _ (S.reportHere c _ h)
    · exact rest _ (S.body c _ h)

theorem functionBody_of_block {fuel : Nat} (hblock : ∀ c, P c → P (Compiler.block decl c fuel)) (h : P c)
    (name : String) :
    P (Compiler.functionBody decl fuel name c) := by
  have started := S.expect (S.openScope (S.body c (.start false (some name)) h)) .leftParen .openParameters
  unfold Compiler.functionBody
  dsimp only
  refine S.emitConstant (S.body _ _ (S.finish (hblock _ (S.expect (S.expect ?_ _ _) _ _)))) _
  split
  · exact started
  · exact S.parameters started fuel

theorem functionBody (hdecl : ∀ c, P c → P (decl c)) (h : P c) (fuel : Nat) (name : String) :
    P (Compiler.functionBody decl fuel name c) :=
  S.functionBody_of_block (fun _ h => S.block hdecl h fuel) h name

theorem funDeclaration_of_block {fuel : Nat} (hblock : ∀ c, P c → P (Compiler.block decl c fuel)) (h : P c) :
    P (Compiler.funDeclaration decl fuel c) :=
  S.define (S.functionBody_of_block hblock (S.completeLocal (S.declareName h .functionName)) _) _

theorem funDeclaration (hdecl : ∀ c, P c → P (decl c)) (h : P c) (fuel : Nat) :
    P (Compiler.funDeclaration decl fuel c) :=
  S.funDeclaration_of_block (fun _ h => S.block hdecl h fuel) h

end

end Steady

namespace Stable

variable {P : Compiler → Prop} (S : Stable P) {c : Compiler}

include S

theorem recover (h : P c) (fuel : Nat) : P (c.recover fuel) := by
  unfold Compiler.recover
  split
  · exact skipStatement_of_accept S.accept (S.calm c h) fuel
  · exact h

section

variable {expr stmt decl : Compiler → Compiler}

theorem anyDeclaration (hexpr : ∀ c, P c → P (expr c)) (hstmt : ∀ c, P c → P (stmt c))
    (hdecl : ∀ c, P c → P (decl c)) (h : P c) (fuel : Nat) :
    P (Compiler.anyDeclaration expr stmt decl fuel c) := by
  refine S.recover ?_ fuel
  split
  · exact S.funDeclaration hdecl (S.accept c h) fuel
  · exact S.varDeclaration hexpr (S.accept c h)
  · exact hstmt _ h

end

theorem statement_declaration (fuel : Nat) :
    (∀ c, P c → P (Compiler.statement fuel c)) ∧ ∀ c, P c → P (Compiler.declaration fuel c) := by
  induction fuel with
  | zero => exact ⟨fun _ h => h, fun _ h => h⟩
  | succ fuel ih =>
    constructor
    · intro c h
      rw [Compiler.statement]
      exact S.anyStatement (S.expression fuel .assignment) ih.1 ih.2 h fuel
    · intro c h
      rw [Compiler.declaration]
      exact S.anyDeclaration (S.expression fuel .assignment) ih.1 ih.2 h fuel

theorem program (h : P c) (fuel count : Nat) : P (Compiler.program fuel c count) := by
  induction count generalizing c with
  | zero => exact h
  | succ count ih =>
    unfold Compiler.program
    split
    · exact S.accept c h
    · exact ih ((S.statement_declaration fuel).2 c h)

end Stable

/-! ### Failure -/

/-- There is a diagnostic. -/
def Failed (c : Compiler) : Prop := c.diagnostics ≠ #[]

theorem Failed.reportAt {c : Compiler} (h : c.Failed) (token : Token) (cause : Diagnostic.Cause) :
    (c.reportAt token cause).Failed := by
  unfold Compiler.reportAt
  split
  · exact h
  · simp [Failed]

theorem Failed.shift {c : Compiler} (h : c.Failed) (tokens : List Token) : (c.shift tokens).Failed := by
  induction tokens generalizing c with
  | nil => exact h
  | cons token tokens ih =>
    unfold Compiler.shift
    split
    · exact ih (h.reportAt _ _)
    · exact h

/-- A compilation that has failed stays so. -/
theorem failed_stable : Stable Failed where
  body _ _ h := h
  finished _ _ h := h
  reportLast c cause h := h.reportAt c.previous cause
  reportHere c cause h := h.reportAt c.current cause
  accept c h := by
    have moved : { c with previous := c.current }.Failed := h
    exact moved.shift c.rest
  calm _ h := h

end Lox.Compiler
