import Lox.Compile

/-! # A compilation that is watched

The compiler once more, with notes of what it goes through: the expressions, statements and declarations that
it enters and how deep they are nested, the rounds of its loops, and what it is about to do to jumps, scopes
and counters. Beside the state of the compiler it keeps the places of the jumps that are still to be filled
in. Apart from that it is the compiler. -/

namespace Lox

/-- What is noted of a compilation. -/
inductive Note where
  /-- The fuel has run out. -/
  | exhausted
  /-- An expression, a statement or a declaration begins, so deep inside others. -/
  | entered (depth : Nat)
  /-- An expression, a statement or a declaration has led from one state to another. -/
  | passed (before after : Compiler)
  /-- A round of a loop has led from one state to another, from which the loop goes on. -/
  | round (before after : Compiler)
  /-- A jump has been written with its placeholder at a place, while other jumps were waiting. -/
  | opened (c : Compiler) (waiting : List Nat) (place : Nat)
  /-- The placeholder at a place is about to be filled in. -/
  | closing (c : Compiler) (waiting : List Nat) (place : Nat)
  /-- A jump back to a place is about to be written. -/
  | looping (c : Compiler) (start : Nat)
  /-- A scope is about to be closed. -/
  | leaving (c : Compiler)
  /-- The locals in scope may have changed. -/
  | inScope (c : Compiler)
  /-- A count of arguments or parameters is about to go up. -/
  | counting (count : UInt8)
  /-- A function has been compiled up to its last return. -/
  | completed (c : Compiler) (waiting stranded : List Nat)

/-- The state of a compilation that is watched. -/
structure Watched where
  compiler : Compiler
  /-- The places of the jumps of the current function that are still to be filled in, the latest first. -/
  waiting : List Nat := []
  /-- The places of its jumps that could not be filled in, since they lead too far. -/
  stranded : List Nat := []
  /-- The notes, the latest first. -/
  notes : List Note := []

namespace Watched

/-! ### Elementary changes -/

/-- A change of the compiler of which nothing is noted. -/
def map (w : Watched) (f : Compiler → Compiler) : Watched := { w with compiler := f w.compiler }

/-- Adds a note. -/
def note (w : Watched) (note : Note) : Watched := { w with notes := note :: w.notes }

/-- Accepts the token at hand. -/
def accept (w : Watched) : Watched := w.map Compiler.accept

/-- Accepts the token at hand if it has the given kind, and otherwise reports what was expected. -/
def expect (w : Watched) (kind : Token.Kind) (what : Diagnostic.Expectation) : Watched :=
  w.map (·.expect kind what)

/-- Writes the bytes of an instruction. -/
def emit (w : Watched) (instruction : Instruction) : Watched := w.map (·.emit instruction)

/-- Writes a forward jump with a placeholder for its distance, and gives the place of the placeholder. -/
def openJump (w : Watched) (jump : UInt16 → Instruction) : Nat × Watched :=
  let (place, c) := w.compiler.openJump jump
  (place,
  { w with compiler := c, waiting := place :: w.waiting, notes := .opened c w.waiting place :: w.notes })

/-- Fills in the placeholder at `place`, so that its jump leads to the end of the code. -/
def closeJump (w : Watched) (place : Nat) : Watched :=
  { compiler := w.compiler.closeJump place
    waiting := w.waiting.erase place
    stranded := if w.compiler.codeSize - place - 2 ≤ Compiler.maxJump then w.stranded else place :: w.stranded
    notes := .closing w.compiler w.waiting place :: w.notes }

/-- Writes a jump back to `start`. -/
def emitLoop (w : Watched) (start : Nat) : Watched :=
  (w.note (.looping w.compiler start)).map (·.emitLoop start)

/-- Notes the locals in scope. -/
def noteScope (w : Watched) : Watched := w.note (.inScope w.compiler)

/-- Closes a scope and writes a pop for each of its locals. -/
def closeScope (w : Watched) : Watched := ((w.note (.leaving w.compiler)).map Compiler.closeScope).noteScope

/-- Accepts and declares a name; for a global, gives the constant with its name. -/
def declareName (w : Watched) (what : Diagnostic.Expectation) : UInt8 × Watched :=
  let (global, c) := w.compiler.declareName what
  (global, noteScope { w with compiler := c })

/-- Makes the innermost local usable, if a scope is open. -/
def completeLocal (w : Watched) : Watched := (w.map Compiler.completeLocal).noteScope

/-- Completes the declaration of a variable whose value is on the stack. -/
def define (w : Watched) (global : UInt8) : Watched := (w.map (·.define global)).noteScope

/-! ### Expressions -/

section

variable (parse : Level → Watched → Watched)

/-- A mention of the variable that was just accepted or, where one may stand, an assignment to it. -/
def mention (assignable : Bool) (w : Watched) : Watched :=
  let name := w.compiler.previous
  let (read, write, c) : Instruction × Instruction × Compiler :=
    match w.compiler.resolve name with
    | (some slot, c) => (.getLocal slot, .setLocal slot, c)
    | (none, c) =>
      let (index, c) := c.nameConstant name
      (.getGlobal index, .setGlobal index, c)
  let w := { w with compiler := c }
  if assignable && c.sees .equal then (parse .assignment w.accept).emit write
  else w.emit read

/-- The operand that begins with the word that was just accepted. -/
def operand (assignable : Bool) (w : Watched) : Watched :=
  match w.compiler.previous.kind with
  | .leftParen => (parse .assignment w).expect .rightParen .closeGroup
  | .minus => (parse .unary w).emit .negate
  | .bang => (parse .unary w).emit .logicalNot
  | .identifier => mention parse assignable w
  | .string =>
    w.map fun c => c.emitConstant (.string (String.ofList (c.previous.lexeme.toList.drop 1).dropLast))
  | .number => w.map fun c => c.emitConstant (.number (Number.ofLiteral c.previous.lexeme))
  | .falseWord => w.emit .falseValue
  | .trueWord => w.emit .trueValue
  | .nilWord => w.emit .nil
  | _ => w

/-- The arguments of a call from the next one on, after `count` of them, and how many there are in all. -/
def arguments (count : UInt8) (w : Watched) : Nat → UInt8 × Watched
  | 0 => (count, w.note .exhausted)
  | fuel + 1 =>
    let before := w.compiler
    let w := parse .assignment w
    let (count, w) :=
      if count = 255 then (count, w.map (·.report .tooManyArguments)) else (count + 1, w.note (.counting count))
    if w.compiler.sees .comma then
      let w := w.accept
      arguments count (w.note (.round before w.compiler)) fuel
    else (count, w)

/-- A call of the operand before the parenthesis that was just accepted. -/
def callOperator (fuel : Nat) (w : Watched) : Watched :=
  let (count, w) := if w.compiler.sees .rightParen then (0, w) else arguments parse 0 w fuel
  (w.expect .rightParen .closeArguments).emit (.call count)

/-- The right side of `and`, which is skipped if the left side is falsy. -/
def andOperator (w : Watched) : Watched :=
  let (toEnd, w) := w.openJump .jumpIfFalse
  (parse .and (w.emit .pop)).closeJump toEnd

/-- The right side of `or`, which is skipped unless the left side is falsy. -/
def orOperator (w : Watched) : Watched :=
  let (toRight, w) := w.openJump .jumpIfFalse
  let (toEnd, w) := w.openJump .jump
  (parse .or ((w.closeJump toRight).emit .pop)).closeJump toEnd

/-- What follows the operator that was just accepted. Binary operators associate to the left. -/
def operator (fuel : Nat) (w : Watched) : Watched :=
  match w.compiler.previous.kind with
  | .leftParen => callOperator parse fuel w
  | .andWord => andOperator parse w
  | .orWord => orOperator parse w
  | kind => (Compiler.operatorCode kind).foldl emit (parse (Level.ofKind kind).next w)

/-- The operators after an operand that bind at least as tightly as `level`. -/
def operators (level : Level) (w : Watched) : Nat → Watched
  | 0 => w.note .exhausted
  | fuel + 1 =>
    if level.rank ≤ (Level.ofKind w.compiler.current.kind).rank then
      let before := w.compiler
      let w := operator parse fuel w.accept
      operators level (w.note (.round before w.compiler)) fuel
    else w

end

/-- Compiles an expression of at least the given level, so deep inside other constructs. -/
def expression : (fuel depth : Nat) → Level → Watched → Watched
  | 0, _, _, w => w.note .exhausted
  | fuel + 1, depth, level, w =>
    let before := w.compiler
    let w := (w.note (.entered depth)).accept
    let w :=
      if Compiler.startsExpression w.compiler.previous.kind then
        let assignable : Bool := level.rank ≤ Level.assignment.rank
        let w := operators (expression fuel (depth + 1)) level
          (operand (expression fuel (depth + 1)) assignable w) fuel
        if assignable && w.compiler.sees .equal then w.accept.map (·.report .invalidTarget) else w
      else w.map (·.report (.expected .expression))
    w.note (.passed before w.compiler)

/-! ### Statements -/

section

variable (expr stmt decl : Watched → Watched)

/-- A `print` statement, after the word. -/
def printStatement (w : Watched) : Watched := ((expr w).expect .semicolon .endPrint).emit .print

/-- An expression whose value is dropped. -/
def expressionStatement (w : Watched) : Watched := ((expr w).expect .semicolon .endExpression).emit .pop

/-- A `return` statement, after the word. -/
def returnStatement (w : Watched) : Watched :=
  let w := if w.compiler.body.isScript then w.map (·.report .returnFromScript) else w
  if w.compiler.sees .semicolon then w.accept.map Compiler.emitBareReturn
  else ((expr w).expect .semicolon .endReturn).emit .ret

/-- An `if` statement, after the word. -/
def ifStatement (w : Watched) : Watched :=
  let w := (expr (w.expect .leftParen .openIf)).expect .rightParen .closeCondition
  let (toElse, w) := w.openJump .jumpIfFalse
  let w := stmt (w.emit .pop)
  let (toEnd, w) := w.openJump .jump
  let w := (w.closeJump toElse).emit .pop
  let w := if w.compiler.sees .elseWord then stmt w.accept else w
  w.closeJump toEnd

/-- A `while` statement, after the word. -/
def whileStatement (w : Watched) : Watched :=
  let start := w.compiler.codeSize
  let w := (expr (w.expect .leftParen .openWhile)).expect .rightParen .closeCondition
  let (toExit, w) := w.openJump .jumpIfFalse
  let w := stmt (w.emit .pop)
  ((w.emitLoop start).closeJump toExit).emit .pop

/-- A `var` declaration, after the word. -/
def varDeclaration (w : Watched) : Watched :=
  let (global, w) := w.declareName .variableName
  let w := if w.compiler.sees .equal then expr w.accept else w.emit .nil
  (w.expect .semicolon .endVariable).define global

/-- The first clause of a `for` statement. -/
def forInitializer (w : Watched) : Watched :=
  if w.compiler.sees .semicolon then w.accept
  else if w.compiler.sees .varWord then varDeclaration expr w.accept
  else expressionStatement expr w

/-- The second clause of a `for` statement, with the place of the jump out of the loop if
    there is a condition. -/
def forCondition (w : Watched) : Option Nat × Watched :=
  if w.compiler.sees .semicolon then (none, w.accept)
  else
    let (toExit, w) := ((expr w).expect .semicolon .endCondition).openJump .jumpIfFalse
    (some toExit, w.emit .pop)

/-- The third clause of a `for` statement of which each round begins at `start`, and the place to which the
    body has to go back. -/
def forIncrement (start : Nat) (w : Watched) : Nat × Watched :=
  if w.compiler.sees .rightParen then (start, w.accept)
  else
    let (toBody, w) := w.openJump .jump
    let increment := w.compiler.codeSize
    let w := ((expr w).emit .pop).expect .rightParen .closeClauses
    (increment, (w.emitLoop start).closeJump toBody)

/-- A `for` statement, after the word. -/
def forStatement (w : Watched) : Watched :=
  let w := forInitializer expr ((w.map Compiler.openScope).expect .leftParen .openFor)
  let start := w.compiler.codeSize
  let (toExit, w) := forCondition expr w
  let (again, w) := forIncrement expr start w
  let w := (stmt w).emitLoop again
  let w := match toExit with
    | some toExit => (w.closeJump toExit).emit .pop
    | none => w
  w.closeScope

/-- The declarations of a block up to its closing brace. -/
def block (w : Watched) : Nat → Watched
  | 0 => w.note .exhausted
  | fuel + 1 =>
    if w.compiler.sees .rightBrace || w.compiler.sees .endOfInput then w.expect .rightBrace .closeBlock
    else
      let before := w.compiler
      let w := decl w
      block (w.note (.round before w.compiler)) fuel

/-- A statement of any kind. -/
def anyStatement (fuel : Nat) (w : Watched) : Watched :=
  match w.compiler.current.kind with
  | .printWord => printStatement expr w.accept
  | .forWord => forStatement expr stmt w.accept
  | .ifWord => ifStatement expr stmt w.accept
  | .returnWord => returnStatement expr w.accept
  | .whileWord => whileStatement expr stmt w.accept
  | .leftBrace => (block decl (w.accept.map Compiler.openScope) fuel).closeScope
  | _ => expressionStatement expr w

/-! ### Declarations -/

/-- The parameters of a function from the next one on. -/
def parameters (w : Watched) : Nat → Watched
  | 0 => w.note .exhausted
  | fuel + 1 =>
    let before := w.compiler
    let arity := w.compiler.body.function.arity
    let w :=
      if arity = 255 then w.map (·.reportHere .tooManyParameters)
      else (w.note (.counting arity)).map fun c => { c with body.function.arity := arity + 1 }
    let (global, w) := w.declareName .parameterName
    let w := w.define global
    if w.compiler.sees .comma then
      let w := w.accept
      parameters (w.note (.round before w.compiler)) fuel
    else w

/-- Begins the body of a function with the given name, in which no jumps are waiting yet. -/
def enter (name : String) (w : Watched) : Watched :=
  noteScope { w with
    compiler := { w.compiler with body := .start false (some name) }.openScope
    waiting := []
    stranded := [] }

/-- Completes the function that is being compiled, goes back to the one around it, as it was in `outer`, and
    writes the push of the completed one. -/
def leave (outer : Watched) (w : Watched) : Watched :=
  let w := w.note (.completed w.compiler w.waiting w.stranded)
  let (function, c) := w.compiler.finish
  { w with
    compiler := { c with body := outer.compiler.body }.emitConstant (.function function)
    waiting := outer.waiting
    stranded := outer.stranded }

/-- The parameters and body of a function with the given name. -/
def functionBody (fuel : Nat) (name : String) (outer : Watched) : Watched :=
  let w := (outer.enter name).expect .leftParen .openParameters
  let w := if w.compiler.sees .rightParen then w else w.parameters fuel
  let w := (w.expect .rightParen .closeParameters).expect .leftBrace .openBody
  outer.leave (block decl w fuel)

/-- A `fun` declaration, after the word. -/
def funDeclaration (fuel : Nat) (w : Watched) : Watched :=
  let (global, w) := w.declareName .functionName
  let w := w.completeLocal
  (functionBody decl fuel w.compiler.previous.lexeme w).define global

/-- Accepts tokens up to the next statement. -/
def skipStatement (w : Watched) : Nat → Watched
  | 0 => w.note .exhausted
  | fuel + 1 =>
    if w.compiler.sees .endOfInput || w.compiler.previous.kind = .semicolon ||
      w.compiler.current.kind.startsStatement then w
    else
      let before := w.compiler
      let w := w.accept
      skipStatement (w.note (.round before w.compiler)) fuel

/-- Ends a panic at the next statement. -/
def recover (w : Watched) (fuel : Nat) : Watched :=
  if w.compiler.panicking then (w.map fun c => { c with panicking := false }).skipStatement fuel else w

/-- A declaration of any kind, and the end of the panic if it caused one. -/
def anyDeclaration (fuel : Nat) (w : Watched) : Watched :=
  let w := match w.compiler.current.kind with
    | .funWord => funDeclaration decl fuel w.accept
    | .varWord => varDeclaration expr w.accept
    | _ => stmt w
  w.recover fuel

end

mutual

/-- Compiles a statement, so deep inside other constructs. -/
def statement : (fuel depth : Nat) → Watched → Watched
  | 0, _, w => w.note .exhausted
  | fuel + 1, depth, w =>
    let before := w.compiler
    let w := anyStatement (expression fuel (depth + 1) .assignment) (statement fuel (depth + 1))
      (declaration fuel (depth + 1)) fuel (w.note (.entered depth))
    w.note (.passed before w.compiler)

/-- Compiles a declaration, so deep inside other constructs. -/
def declaration : (fuel depth : Nat) → Watched → Watched
  | 0, _, w => w.note .exhausted
  | fuel + 1, depth, w =>
    let before := w.compiler
    let w := anyDeclaration (expression fuel (depth + 1) .assignment) (statement fuel (depth + 1))
      (declaration fuel (depth + 1)) fuel (w.note (.entered depth))
    w.note (.passed before w.compiler)

end

/-- Compiles declarations up to the end of the input, each with the given fuel. -/
def program (fuel : Nat) (w : Watched) : Nat → Watched
  | 0 => w.note .exhausted
  | count + 1 =>
    if w.compiler.sees .endOfInput then w.accept
    else
      let before := w.compiler
      let w := declaration fuel 1 w
      program fuel (w.note (.round before w.compiler)) count

/-- Compiles tokens, up to the last return of the script. -/
def watch (tokens : List Token) : Watched :=
  let fuel := 2 * tokens.length + 4
  let w := (noteScope { compiler := (Compiler.start tokens).accept }).program fuel fuel
  w.note (.completed w.compiler w.waiting w.stranded)

/-! ### The compiler behind the notes -/

variable {w : Watched}

@[simp] theorem compiler_map (w : Watched) (f : Compiler → Compiler) : (w.map f).compiler = f w.compiler := rfl

@[simp] theorem compiler_note (w : Watched) (note : Note) : (w.note note).compiler = w.compiler := rfl

@[simp] theorem compiler_accept (w : Watched) : w.accept.compiler = w.compiler.accept := rfl

@[simp] theorem compiler_expect (w : Watched) (kind : Token.Kind) (what : Diagnostic.Expectation) :
    (w.expect kind what).compiler = w.compiler.expect kind what := rfl

@[simp] theorem compiler_emit (w : Watched) (i : Instruction) : (w.emit i).compiler = w.compiler.emit i := rfl

@[simp] theorem openJump_fst (w : Watched) (jump : UInt16 → Instruction) :
    (w.openJump jump).1 = (w.compiler.openJump jump).1 := rfl

@[simp] theorem compiler_openJump (w : Watched) (jump : UInt16 → Instruction) :
    (w.openJump jump).2.compiler = (w.compiler.openJump jump).2 := rfl

@[simp] theorem compiler_closeJump (w : Watched) (place : Nat) :
    (w.closeJump place).compiler = w.compiler.closeJump place := rfl

@[simp] theorem compiler_emitLoop (w : Watched) (start : Nat) :
    (w.emitLoop start).compiler = w.compiler.emitLoop start := rfl

@[simp] theorem compiler_noteScope (w : Watched) : w.noteScope.compiler = w.compiler := rfl

@[simp] theorem compiler_closeScope (w : Watched) : w.closeScope.compiler = w.compiler.closeScope := rfl

@[simp] theorem declareName_fst (w : Watched) (what : Diagnostic.Expectation) :
    (w.declareName what).1 = (w.compiler.declareName what).1 := rfl

@[simp] theorem compiler_declareName (w : Watched) (what : Diagnostic.Expectation) :
    (w.declareName what).2.compiler = (w.compiler.declareName what).2 := rfl

@[simp] theorem compiler_completeLocal (w : Watched) : w.completeLocal.compiler = w.compiler.completeLocal :=
  rfl

@[simp] theorem compiler_define (w : Watched) (global : UInt8) :
    (w.define global).compiler = w.compiler.define global := rfl

theorem compiler_emitAll (instructions : List Instruction) (w : Watched) :
    (instructions.foldl emit w).compiler = instructions.foldl Compiler.emit w.compiler := by
  induction instructions generalizing w with
  | nil => rfl
  | cons i instructions ih => exact ih (w.emit i)

/-- Apart from the notes, a part of the compilation that is watched does what a part of the compiler does. -/
def Follows (f : Watched → Watched) (g : Compiler → Compiler) : Prop := ∀ w, (f w).compiler = g w.compiler

section

variable {parse : Level → Watched → Watched} {parse' : Level → Compiler → Compiler}
variable (hparse : ∀ level, Follows (parse level) (parse' level))

include hparse

theorem follows_mention (assignable : Bool) :
    Follows (mention parse assignable) (Compiler.mention parse' assignable) := by
  intro w
  unfold mention Compiler.mention
  dsimp only
  split <;> split <;> simp [hparse _ _, *]

theorem follows_operand (assignable : Bool) :
    Follows (operand parse assignable) (Compiler.operand parse' assignable) := by
  intro w
  unfold operand Compiler.operand
  split <;> simp [hparse _ _, follows_mention hparse assignable w, *]

theorem arguments_eq (count : UInt8) (w : Watched) (fuel : Nat) :
    (arguments parse count w fuel).map id compiler = Compiler.arguments parse' count w.compiler fuel := by
  induction fuel generalizing count w with
  | zero => rfl
  | succ fuel ih =>
    unfold arguments Compiler.arguments
    dsimp only
    by_cases hcount : count = 255
    · simp only [if_pos hcount, compiler_map, hparse _ _]
      split
      · exact (ih _ _).trans (by simp [hparse _ _])
      · exact Prod.ext rfl (by simp [hparse _ _])
    · simp only [if_neg hcount, compiler_note, hparse _ _]
      split
      · exact (ih _ _).trans (by simp [hparse _ _])
      · exact Prod.ext rfl (by simp [hparse _ _])

theorem follows_callOperator (fuel : Nat) :
    Follows (callOperator parse fuel) (Compiler.callOperator parse' fuel) := by
  intro w
  unfold callOperator Compiler.callOperator
  by_cases hclose : w.compiler.sees .rightParen = true
  · simp only [if_pos hclose, compiler_emit, compiler_expect]
  · rw [if_neg hclose, if_neg hclose, ← arguments_eq hparse]
    rfl

theorem follows_andOperator : Follows (andOperator parse) (Compiler.andOperator parse') := by
  intro w
  simp [andOperator, Compiler.andOperator, hparse _ _]

theorem follows_orOperator : Follows (orOperator parse) (Compiler.orOperator parse') := by
  intro w
  simp [orOperator, Compiler.orOperator, hparse _ _]

theorem follows_operator (fuel : Nat) : Follows (operator parse fuel) (Compiler.operator parse' fuel) := by
  intro w
  unfold operator Compiler.operator
  split <;> simp [follows_callOperator hparse fuel w, follows_andOperator hparse w, follows_orOperator hparse w,
    compiler_emitAll, hparse _ _, *]

theorem compiler_operators (level : Level) (w : Watched) (fuel : Nat) :
    (operators parse level w fuel).compiler = Compiler.operators parse' level w.compiler fuel := by
  induction fuel generalizing w with
  | zero => rfl
  | succ fuel ih =>
    unfold operators Compiler.operators
    split
    · exact (ih _).trans (by simp [follows_operator hparse fuel _])
    · rfl

end

theorem follows_expression (fuel depth : Nat) (level : Level) :
    Follows (expression fuel depth level) (Compiler.expression fuel level) := by
  induction fuel generalizing depth level with
  | zero => exact fun _ => rfl
  | succ fuel ih =>
    intro w
    have hread : (operators (expression fuel (depth + 1)) level (operand (expression fuel (depth + 1))
        (level.rank ≤ Level.assignment.rank) (w.note (.entered depth)).accept) fuel).compiler =
        Compiler.operators (Compiler.expression fuel) level (Compiler.operand (Compiler.expression fuel)
          (level.rank ≤ Level.assignment.rank) w.compiler.accept) fuel := by
      rw [compiler_operators (ih (depth + 1)), follows_operand (ih (depth + 1))]
      rfl
    unfold expression Compiler.expression
    dsimp only
    rw [← hread, compiler_note, compiler_accept, compiler_note]
    by_cases hstarts : Compiler.startsExpression w.compiler.accept.previous.kind = true
    · rw [if_pos hstarts, if_pos hstarts]
      split <;> rfl
    · rw [if_neg hstarts, if_neg hstarts]
      rfl

section

variable {expr stmt decl : Watched → Watched} {expr' stmt' decl' : Compiler → Compiler}

theorem follows_expressionStatement (hexpr : Follows expr expr') :
    Follows (expressionStatement expr) (Compiler.expressionStatement expr') := by
  intro w
  simp [expressionStatement, Compiler.expressionStatement, hexpr _]

theorem follows_printStatement (hexpr : Follows expr expr') :
    Follows (printStatement expr) (Compiler.printStatement expr') := by
  intro w
  simp [printStatement, Compiler.printStatement, hexpr _]

theorem follows_returnStatement (hexpr : Follows expr expr') :
    Follows (returnStatement expr) (Compiler.returnStatement expr') := by
  intro w
  have hrest : ∀ d : Watched, (if d.compiler.sees .semicolon then d.accept.map Compiler.emitBareReturn
      else ((expr d).expect .semicolon .endReturn).emit .ret).compiler =
      if d.compiler.sees .semicolon then d.compiler.accept.emitBareReturn
      else ((expr' d.compiler).expect .semicolon .endReturn).emit .ret := by
    intro d
    split <;> simp [hexpr _]
  unfold returnStatement Compiler.returnStatement
  split <;> exact hrest _

theorem follows_ifStatement (hexpr : Follows expr expr') (hstmt : Follows stmt stmt') :
    Follows (ifStatement expr stmt) (Compiler.ifStatement expr' stmt') := by
  intro w
  unfold ifStatement Compiler.ifStatement
  dsimp only
  split <;> simp_all [hexpr _, hstmt _]

theorem follows_whileStatement (hexpr : Follows expr expr') (hstmt : Follows stmt stmt') :
    Follows (whileStatement expr stmt) (Compiler.whileStatement expr' stmt') := by
  intro w
  simp [whileStatement, Compiler.whileStatement, hexpr _, hstmt _]

theorem follows_varDeclaration (hexpr : Follows expr expr') :
    Follows (varDeclaration expr) (Compiler.varDeclaration expr') := by
  intro w
  unfold varDeclaration Compiler.varDeclaration
  dsimp only
  split <;> simp_all [hexpr _]

theorem follows_forInitializer (hexpr : Follows expr expr') :
    Follows (forInitializer expr) (Compiler.forInitializer expr') := by
  intro w
  unfold forInitializer Compiler.forInitializer
  split
  · rfl
  · split
    · exact follows_varDeclaration hexpr _
    · exact follows_expressionStatement hexpr _

theorem forCondition_eq (hexpr : Follows expr expr') (w : Watched) :
    (forCondition expr w).map id compiler = Compiler.forCondition expr' w.compiler := by
  unfold forCondition Compiler.forCondition
  split <;> simp [hexpr _]

theorem forIncrement_eq (hexpr : Follows expr expr') (start : Nat) (w : Watched) :
    (forIncrement expr start w).map id compiler = Compiler.forIncrement expr' start w.compiler := by
  unfold forIncrement Compiler.forIncrement
  split <;> simp [hexpr _]

theorem follows_forStatement (hexpr : Follows expr expr') (hstmt : Follows stmt stmt') :
    Follows (forStatement expr stmt) (Compiler.forStatement expr' stmt') := by
  intro w
  have hfirst := follows_forInitializer hexpr ((w.map Compiler.openScope).expect .leftParen .openFor)
  unfold forStatement Compiler.forStatement
  dsimp only
  rw [compiler_expect, compiler_map] at hfirst
  rw [← hfirst]
  generalize forInitializer expr ((w.map Compiler.openScope).expect .leftParen .openFor) = first
  rw [← forCondition_eq hexpr first]
  rcases forCondition expr first with ⟨toExit, second⟩
  dsimp only [Prod.map_apply, id]
  rw [← forIncrement_eq hexpr _ second]
  rcases forIncrement expr first.compiler.codeSize second with ⟨again, third⟩
  cases toExit <;> simp [hstmt _]

theorem compiler_block (hdecl : Follows decl decl') (w : Watched) (fuel : Nat) :
    (block decl w fuel).compiler = Compiler.block decl' w.compiler fuel := by
  induction fuel generalizing w with
  | zero => rfl
  | succ fuel ih =>
    unfold block Compiler.block
    split
    · rfl
    · exact (ih _).trans (by simp [hdecl _])

theorem follows_anyStatement (hexpr : Follows expr expr') (hstmt : Follows stmt stmt')
    (hdecl : Follows decl decl') (fuel : Nat) : Follows (anyStatement expr stmt decl fuel)
    (Compiler.anyStatement expr' stmt' decl' fuel) := by
  intro w
  unfold anyStatement Compiler.anyStatement
  split <;> simp [follows_printStatement hexpr _, follows_forStatement hexpr hstmt _,
    follows_ifStatement hexpr hstmt _,
    follows_returnStatement hexpr _, follows_whileStatement hexpr hstmt _, compiler_block hdecl,
    follows_expressionStatement hexpr _, *]

theorem compiler_parameters (w : Watched) (fuel : Nat) :
    (w.parameters fuel).compiler = w.compiler.parameters fuel := by
  induction fuel generalizing w with
  | zero => rfl
  | succ fuel ih =>
    have hrest : ∀ (before : Compiler) (d : Watched),
        (let e := (d.declareName .parameterName).2.define (d.declareName .parameterName).1
        if e.compiler.sees .comma then parameters (e.accept.note (.round before e.accept.compiler)) fuel
          else e).compiler =
        let e := (d.compiler.declareName .parameterName).2.define (d.compiler.declareName .parameterName).1
        if e.sees .comma then e.accept.parameters fuel else e := by
      intro before d
      dsimp only
      rw [← compiler_declareName, ← declareName_fst, ← compiler_define]
      generalize (d.declareName .parameterName).2.define (d.declareName .parameterName).1 = e
      split
      · exact ih _
      · rfl
    unfold parameters Compiler.parameters
    dsimp only
    by_cases harity : w.compiler.body.function.arity = 255
    · rw [if_pos harity, if_pos harity]
      exact hrest _ _
    · rw [if_neg harity, if_neg harity]
      exact hrest _ _

theorem compiler_leave (outer w : Watched) : (outer.leave w).compiler =
    { w.compiler.finish.2 with body := outer.compiler.body }.emitConstant (.function w.compiler.finish.1) := rfl

theorem follows_functionBody (hdecl : Follows decl decl') (fuel : Nat) (name : String) :
    Follows (functionBody decl fuel name) (Compiler.functionBody decl' fuel name) := by
  intro w
  have hparameters : ∀ d : Watched, (if d.compiler.sees .rightParen then d else d.parameters fuel).compiler =
      if d.compiler.sees .rightParen then d.compiler else d.compiler.parameters fuel := by
    intro d
    split
    · rfl
    · exact compiler_parameters d fuel
  unfold functionBody Compiler.functionBody
  dsimp only
  rw [compiler_leave, compiler_block hdecl, compiler_expect, compiler_expect, hparameters]
  rfl

theorem follows_funDeclaration (hdecl : Follows decl decl') (fuel : Nat) :
    Follows (funDeclaration decl fuel) (Compiler.funDeclaration decl' fuel) := by
  intro w
  simp [funDeclaration, Compiler.funDeclaration, follows_functionBody hdecl fuel _ _]

theorem compiler_skipStatement (w : Watched) (fuel : Nat) :
    (w.skipStatement fuel).compiler = w.compiler.skipStatement fuel := by
  induction fuel generalizing w with
  | zero => rfl
  | succ fuel ih =>
    unfold skipStatement Compiler.skipStatement
    split
    · rfl
    · exact ih _

theorem compiler_recover (w : Watched) (fuel : Nat) : (w.recover fuel).compiler = w.compiler.recover fuel := by
  unfold recover Compiler.recover
  split
  · exact compiler_skipStatement _ fuel
  · rfl

theorem follows_anyDeclaration (hexpr : Follows expr expr') (hstmt : Follows stmt stmt')
    (hdecl : Follows decl decl') (fuel : Nat) : Follows (anyDeclaration expr stmt decl fuel)
    (Compiler.anyDeclaration expr' stmt' decl' fuel) := by
  intro w
  unfold anyDeclaration Compiler.anyDeclaration
  dsimp only
  rw [compiler_recover]
  congr 1
  split <;> simp [follows_funDeclaration hdecl fuel _, follows_varDeclaration hexpr _, hstmt _, *]

end

theorem follows_statement_declaration (fuel depth : Nat) :
    Follows (statement fuel depth) (Compiler.statement fuel) ∧
      Follows (declaration fuel depth) (Compiler.declaration fuel) := by
  induction fuel generalizing depth with
  | zero => exact ⟨fun _ => rfl, fun _ => rfl⟩
  | succ fuel ih =>
    obtain ⟨hstmt, hdecl⟩ := ih (depth + 1)
    have hexpr := follows_expression fuel (depth + 1) .assignment
    constructor
    · intro w
      rw [statement, Compiler.statement]
      exact follows_anyStatement hexpr hstmt hdecl fuel _
    · intro w
      rw [declaration, Compiler.declaration]
      exact follows_anyDeclaration hexpr hstmt hdecl fuel _

theorem compiler_program (fuel : Nat) (w : Watched) (count : Nat) :
    (program fuel w count).compiler = Compiler.program fuel w.compiler count := by
  induction count generalizing w with
  | zero => rfl
  | succ count ih =>
    unfold program Compiler.program
    split
    · rfl
    · exact (ih _).trans (by simp [(follows_statement_declaration fuel 1).2 _])

/-- A compilation that is watched gives what the compilation gives. -/
theorem compileTokens_eq (tokens : List Token) : compileTokens tokens =
    { finished := (watch tokens).compiler.finish.2.finished.toList
      result :=
        if (watch tokens).compiler.finish.2.diagnostics.isEmpty then .ok (watch tokens).compiler.finish.1
        else .error (watch tokens).compiler.finish.2.diagnostics.toList } := by
  unfold watch
  dsimp only
  rw [compiler_note, compiler_program]
  rfl

end Watched

end Lox
