import Lox.Proofs.Compilation.Expression

/-! # Compiling statements

If the compilers of expressions and of smaller statements are right, then so is the compiler of each kind of
statement. An expression in a statement is always followed by a token that closes it, so that reading by
precedence finds the expressions of the grammar. -/

namespace Lox

namespace Grammar

/-! ### How constructs begin -/

/-- An expression begins with a word with which one can begin. -/
theorem Expression.starts {level : Level} {input rest : List Token} {e : Expr}
    (h : Expression level input e rest) :
    ∃ token tail, input = token :: tail ∧ Compiler.startsExpression token.kind = true := by
  -- The first token is that of the leftmost operand, whatever the arguments of calls are.
  refine @Expression.rec
    (fun _ input _ _ _ => ∃ token tail, input = token :: tail ∧ Compiler.startsExpression token.kind = true)
    (fun _ _ _ _ => True) ?assign ?or ?and ?binary ?unary ?bareCall ?call ?literal ?mention ?group ?tighter
    ?one ?more level input e rest h
  case or | and | binary | bareCall | call | tighter =>
    intros
    assumption
  case assign =>
    intro name _ _ _ _ hname _ _ _
    exact ⟨_, _, rfl, by rw [hname]; rfl⟩
  case mention =>
    intro name _ hname
    exact ⟨_, _, rfl, by rw [hname]; rfl⟩
  case group =>
    intro left _ _ _ _ hopen _ _ _
    exact ⟨_, _, rfl, by rw [hopen]; rfl⟩
  case unary =>
    intro word _ _ _ _ hword _ _
    refine ⟨_, _, rfl, ?_⟩
    unfold UnaryOp.ofKind? at hword
    split at hword <;> simp_all [Compiler.startsExpression]
  case literal =>
    intro token _ _ htoken
    exact ⟨_, _, rfl, Compiler.startsExpression_of_operand (@Precedence.Operand.literal false _ [] _ htoken)⟩
  case one | more =>
    intros
    trivial

theorem Expression.starts_cons {level : Level} {token : Token} {input rest : List Token} {e : Expr}
    (h : Expression level (token :: input) e rest) : Compiler.startsExpression token.kind = true := by
  obtain ⟨token', tail, heq, hstarts⟩ := h.starts
  cases heq
  exact hstarts

/-- Whether a statement can begin with a word of this kind. -/
def startsStatement : Token.Kind → Bool
  | .printWord | .forWord | .ifWord | .returnWord | .whileWord | .leftBrace => true
  | kind => Compiler.startsExpression kind

theorem startsStatement_of_startsExpression {kind : Token.Kind} (h : Compiler.startsExpression kind = true) :
    startsStatement kind = true := by
  cases kind <;> first | rfl | cases h

theorem Statement.starts {input rest : List Token} {s : Stmt} (h : Statement input s rest) :
    ∃ token tail, input = token :: tail ∧ startsStatement token.kind = true := by
  cases h with
  | expression he =>
    obtain ⟨token, tail, rfl, hstarts⟩ := he.starts
    exact ⟨token, tail, rfl, startsStatement_of_startsExpression hstarts⟩
  | print hword | bareReturn hword | ret hword | ifThen hword | ifElse hword | whileLoop hword | forLoop hword
  | block hword =>
    exact ⟨_, _, rfl, by rw [hword]; rfl⟩

theorem Statement.starts_cons {token : Token} {input rest : List Token} {s : Stmt}
    (h : Statement (token :: input) s rest) : startsStatement token.kind = true := by
  obtain ⟨token', tail, heq, hstarts⟩ := h.starts
  cases heq
  exact hstarts

theorem Passes.readable {input rest : List Token} (h : Passes input rest) (hrest : Readable rest) :
    Readable input := by
  obtain ⟨taken, rfl, hs⟩ := h
  cases taken with
  | nil => exact hrest
  | cons token taken => exact readable_cons rfl (hs token List.mem_cons_self)

theorem Consumes.readable {input rest : List Token} (h : Consumes input rest) : Readable input := by
  cases input with
  | nil => exact absurd h.shorter (Nat.not_lt_zero _)
  | cons token input => exact readable_cons rfl h.tail.1

end Grammar

namespace Compiler

variable {expr stmt : Compiler → Compiler} {n : Nat} {c : Compiler} {p : Point}

/-! ### Expressions in statements -/

/-- The compiler of whole expressions is right where at most `n` tokens are left, and keeps failures. -/
structure ParsesExpr (expr : Compiler → Compiler) (n : Nat) : Prop where
  reads : ∀ {c : Compiler} {p : Point} (height : Nat), c.At p → p.tokens.length ≤ n →
    Outcome (expr c) (Reads (Precedence.Expression .assignment p.tokens) p.body height)
  failed : ∀ c, c.Failed → (expr c).Failed

/-- What is read of an expression with the token that closes it. -/
structure Closing where
  e : Expr
  token : Token
  rest : List Token

/-- An expression and a closing token of a kind are read in a function. -/
structure ReadsClosed (kind : Token.Kind) (tokens : List Token) (b : Body) (height : Nat)
    (x : Closing) : Prop where
  read : Grammar.Expression .assignment tokens x.e (x.token :: x.rest)
  kind : x.token.kind = kind
  readable : Readable x.rest
  fits : x.e.Fits b height

/-- The point after an expression and its closing token. -/
def Closing.point (x : Closing) (b : Body) (height : Nat) : Point :=
  ⟨x.rest, x.token.line, b.add (x.e.code b.locals b.count height)⟩

/-- The words that close an expression in a statement. -/
def closes : Token.Kind → Bool
  | .semicolon | .rightParen => true
  | _ => false

theorem closed_of_closes {token : Token} (rest : List Token) (h : closes token.kind = true) :
    Precedence.Closed (token :: rest) ∧ Readable (token :: rest) := by
  constructor
  · rintro _ ⟨⟩
    cases hkind : token.kind <;> rw [hkind] at h <;> first | decide | cases h
  · refine readable_cons rfl fun herror => ?_
    rw [herror] at h
    cases h

theorem At.closedExpr (hexpr : ParsesExpr expr n) (h : c.At p) (hn : p.tokens.length ≤ n) (height : Nat)
    (kind : Token.Kind) (hcloses : closes kind = true) (what : Diagnostic.Expectation) :
    Outcome ((expr c).expect kind what) fun q => ∃ x, ReadsClosed kind p.tokens p.body height x ∧
      q = x.point p.body height := by
  have hend : kind ≠ .endOfInput := by
    rintro rfl
    cases hcloses
  have hbind := (hexpr.reads height h hn).bind (fun hf => failed_stable.expect hf kind what)
    fun r _ hat => hat.expect kind hend what
  refine hbind.iff fun q => ?_
  constructor
  · rintro ⟨_, ⟨e, _, hread, -, hfits, rfl⟩, ⟨token, rest, rfl, hkind, hreadable, rfl⟩⟩
    exact ⟨⟨e, token, rest⟩, ⟨(Precedence.expression_iff.mp hread).1, hkind, hreadable, hfits⟩, rfl⟩
  · rintro ⟨⟨e, token, rest⟩, ⟨hread, rfl, hreadable, hfits⟩, rfl⟩
    obtain ⟨hclosed, hhead⟩ := closed_of_closes rest hcloses
    exact ⟨_, ⟨e, token :: rest, Precedence.expression_iff.mpr ⟨hread, hclosed⟩, hhead, hfits, rfl⟩,
      ⟨token, rest, rfl, rfl, hreadable, rfl⟩⟩

/-! ### Simple statements -/

end Compiler

/-- A statement obeys the rules in a function, and there is room for its constants. -/
def Stmt.Fits (b : Body) (s : Stmt) : Prop :=
  s.Allowed b.isScript b.scope ∧ b.count + (s.code b.scope b.count).constants.length ≤ Chunk.maxConstants

namespace Compiler

variable {expr stmt : Compiler → Compiler} {n : Nat} {c : Compiler} {p : Point} {word : Token}
    {tokens : List Token}
  {line : UInt32} {b : Body}

/-- The points after a statement that begins with the given tokens in a function. -/
def ReadsStmt (tokens : List Token) (b : Body) (q : Point) : Prop :=
  ∃ x : Stmt × List Token, (Grammar.Statement tokens x.1 x.2 ∧ Readable x.2 ∧ x.1.Fits b) ∧
    q = ⟨x.2, x.1.endLine, b.add (x.1.code b.scope b.count)⟩

theorem statement_print_iff {rest : List Token} {s : Stmt} (hword : word.kind = .printWord) :
    Grammar.Statement (word :: tokens) s rest ↔ ∃ e semicolon, s = .print e semicolon.line ∧
      Grammar.Expression .assignment tokens e (semicolon :: rest) ∧ semicolon.kind = .semicolon := by
  constructor
  · intro h
    cases h with
    | print _ he hsemicolon => exact ⟨_, _, rfl, he, hsemicolon⟩
    | expression he =>
      have hstarts := he.starts_cons
      rw [hword] at hstarts
      cases hstarts
    | bareReturn h | ret h | ifThen h | ifElse h | whileLoop h | forLoop h | block h => simp [hword] at h
  · rintro ⟨e, semicolon, rfl, he, hsemicolon⟩
    exact .print hword he hsemicolon

theorem At.printStatement (hexpr : ParsesExpr expr n) (h : c.At ⟨tokens, line, b⟩) (hn : tokens.length ≤ n)
    (hword : word.kind = .printWord) : Outcome (printStatement expr c) (ReadsStmt (word :: tokens) b) := by
  have hbind := (h.closedExpr hexpr hn b.scope.height .semicolon rfl .endPrint).bindOver
    (fun hf => failed_stable.emit hf .print) fun x _ hat => (hat.emit .print (b.scope.height + 1)).outcome
  refine hbind.iff fun q => ?_
  constructor
  · rintro ⟨⟨e, semicolon, rest⟩, ⟨hread, hkind, hreadable, hallowed, hroom⟩, rfl⟩
    refine ⟨(.print e semicolon.line, rest), ⟨.print hword hread hkind, hreadable, hallowed, ?_⟩, ?_⟩
    · simpa [Stmt.code] using hroom
    · simp [Closing.point, Point.add, Body.add_add, Stmt.code, Stmt.endLine]
  · rintro ⟨⟨s, rest⟩, ⟨hread, hreadable, hallowed, hroom⟩, rfl⟩
    obtain ⟨e, semicolon, rfl, he, hkind⟩ := (statement_print_iff hword).mp hread
    refine ⟨⟨e, semicolon, rest⟩, ⟨he, hkind, hreadable, hallowed, ?_⟩, ?_⟩
    · simpa [Stmt.code] using hroom
    · simp [Closing.point, Point.add, Body.add_add, Stmt.code, Stmt.endLine]

theorem statement_expression_iff {token : Token} {rest : List Token} {s : Stmt}
    (hstarts : startsExpression token.kind = true) :
    Grammar.Statement (token :: tokens) s rest ↔ ∃ e semicolon, s = .expression e semicolon.line ∧
      Grammar.Expression .assignment (token :: tokens) e (semicolon :: rest) ∧ semicolon.kind = .semicolon := by
  constructor
  · intro h
    cases h with
    | expression he hsemicolon => exact ⟨_, _, rfl, he, hsemicolon⟩
    | print h | bareReturn h | ret h | ifThen h | ifElse h | whileLoop h | forLoop h | block h =>
      rw [h] at hstarts
      cases hstarts
  · rintro ⟨e, semicolon, rfl, he, hsemicolon⟩
    exact .expression he hsemicolon

theorem At.expressionStatement_closed (hexpr : ParsesExpr expr n) (h : c.At p) (hn : p.tokens.length ≤ n)
    (height : Nat) :
    Outcome (expressionStatement expr c) fun q => ∃ x, ReadsClosed .semicolon p.tokens p.body height x ∧
      q = (x.point p.body height).add (.single x.token.line (height + 1) .pop) :=
  (h.closedExpr hexpr hn height .semicolon rfl .endExpression).bindOver (fun hf => failed_stable.emit hf .pop)
    fun _ _ hat => (hat.emit .pop (height + 1)).outcome

/-- Any word that begins no other statement begins an expression, or none at all. -/
theorem At.expressionStatement (hexpr : ParsesExpr expr n) (h : c.At ⟨word :: tokens, line, b⟩)
    (hn : (word :: tokens).length ≤ n)
    (hword : Grammar.startsStatement word.kind = true → startsExpression word.kind = true) :
    Outcome (expressionStatement expr c) (ReadsStmt (word :: tokens) b) := by
  refine (h.expressionStatement_closed hexpr hn b.scope.height).iff fun q => ?_
  constructor
  · rintro ⟨⟨e, semicolon, rest⟩, ⟨hread, hkind, hreadable, hallowed, hroom⟩, rfl⟩
    refine ⟨(.expression e semicolon.line, rest), ⟨.expression hread hkind, hreadable, hallowed, ?_⟩, ?_⟩
    · simpa [Stmt.code] using hroom
    · simp [Closing.point, Point.add, Body.add_add, Stmt.code, Stmt.endLine]
  · rintro ⟨⟨s, rest⟩, ⟨hread, hreadable, hallowed, hroom⟩, rfl⟩
    obtain ⟨e, semicolon, rfl, he, hkind⟩ := (statement_expression_iff (hword hread.starts_cons)).mp hread
    refine ⟨⟨e, semicolon, rest⟩, ⟨he, hkind, hreadable, hallowed, ?_⟩, ?_⟩
    · simpa [Stmt.code] using hroom
    · simp [Closing.point, Point.add, Body.add_add, Stmt.code, Stmt.endLine]

theorem statement_return_iff {rest : List Token} {s : Stmt} (hword : word.kind = .returnWord) :
    Grammar.Statement (word :: tokens) s rest ↔
      (∃ semicolon, tokens = semicolon :: rest ∧ semicolon.kind = .semicolon ∧ s = .ret none semicolon.line) ∨
      ∃ e semicolon, s = .ret (some e) semicolon.line ∧
        Grammar.Expression .assignment tokens e (semicolon :: rest) ∧ semicolon.kind = .semicolon := by
  constructor
  · intro h
    cases h with
    | bareReturn _ hsemicolon => exact Or.inl ⟨_, rfl, hsemicolon, rfl⟩
    | ret _ he hsemicolon => exact Or.inr ⟨_, _, rfl, he, hsemicolon⟩
    | expression he =>
      have hstarts := he.starts_cons
      rw [hword] at hstarts
      cases hstarts
    | print h | ifThen h | ifElse h | whileLoop h | forLoop h | block h => simp [hword] at h
  · rintro (⟨semicolon, rfl, hsemicolon, rfl⟩ | ⟨e, semicolon, rfl, he, hsemicolon⟩)
    · exact .bareReturn hword hsemicolon
    · exact .ret hword he hsemicolon

/-- The end of a `return` statement that stands in a function. -/
theorem At.returned (hexpr : ParsesExpr expr n) (h : c.At ⟨tokens, line, b⟩) (hn : tokens.length ≤ n)
    (hword : word.kind = .returnWord) (hscript : b.isScript = false) :
    Outcome (if c.sees .semicolon then c.accept.emitBareReturn
      else ((expr c).expect .semicolon .endReturn).emit .ret) (ReadsStmt (word :: tokens) b) := by
  by_cases hsees : c.sees .semicolon = true
  · rw [if_pos hsees]
    have hbind := (h.accept_takes hsees (by decide)).bind
        (fun hf => failed_stable.emitBareReturn hf) fun r _ hat =>
      ((hat.emit .nil b.scope.height).emit .ret (b.scope.height + 1)).outcome
    refine hbind.iff fun q => ?_
    constructor
    · rintro ⟨_, ⟨semicolon, rest, rfl, hkind, hreadable, rfl⟩, rfl⟩
      refine ⟨(.ret none semicolon.line, rest), ⟨.bareReturn hword hkind, hreadable, hscript, ?_⟩, ?_⟩
      · simpa [Stmt.code] using h.room
      · simp [Point.add, Body.add_add, Stmt.code, Stmt.endLine]
    · rintro ⟨⟨s, rest⟩, ⟨hread, hreadable, -, -⟩, rfl⟩
      rcases (statement_return_iff hword).mp hread with ⟨semicolon, rfl, hkind, rfl⟩ | ⟨e, semicolon, -, he, -⟩
      · refine ⟨_, ⟨semicolon, rest, rfl, hkind, hreadable, rfl⟩, ?_⟩
        simp [Point.add, Body.add_add, Stmt.code, Stmt.endLine]
      · obtain ⟨token, tail, rfl, hstarts⟩ := he.starts
        rw [(h.sees rfl _).mp hsees] at hstarts
        cases hstarts
  · rw [if_neg hsees]
    have hbind := (h.closedExpr hexpr hn b.scope.height .semicolon rfl .endReturn).bindOver
      (fun hf => failed_stable.emit hf .ret) fun x _ hat => (hat.emit .ret (b.scope.height + 1)).outcome
    refine hbind.iff fun q => ?_
    constructor
    · rintro ⟨⟨e, semicolon, rest⟩, ⟨hread, hkind, hreadable, hallowed, hroom⟩, rfl⟩
      refine ⟨(.ret (some e) semicolon.line, rest),
        ⟨.ret hword hread hkind, hreadable, ⟨hscript, hallowed⟩, ?_⟩, ?_⟩
      · simpa [Stmt.code] using hroom
      · simp [Closing.point, Point.add, Body.add_add, Stmt.code, Stmt.endLine]
    · rintro ⟨⟨s, rest⟩, ⟨hread, hreadable, hallowed, hroom⟩, rfl⟩
      rcases (statement_return_iff hword).mp hread with ⟨semicolon, rfl, hkind, rfl⟩ |
        ⟨e, semicolon, rfl, he, hkind⟩
      · exact absurd ((h.sees rfl _).mpr hkind) hsees
      · refine ⟨⟨e, semicolon, rest⟩, ⟨he, hkind, hreadable, hallowed.2, ?_⟩, ?_⟩
        · simpa [Stmt.code] using hroom
        · simp [Closing.point, Point.add, Body.add_add, Stmt.code, Stmt.endLine]

theorem At.returnStatement (hexpr : ParsesExpr expr n) (h : c.At ⟨tokens, line, b⟩) (hn : tokens.length ≤ n)
    (hword : word.kind = .returnWord) : Outcome (returnStatement expr c) (ReadsStmt (word :: tokens) b) := by
  cases hscript : b.isScript with
  | false =>
    have hunfold : Compiler.returnStatement expr c = if c.sees .semicolon then c.accept.emitBareReturn
        else ((expr c).expect .semicolon .endReturn).emit .ret := by
      unfold Compiler.returnStatement
      rw [h.body, hscript]
      rfl
    rw [hunfold]
    exact h.returned hexpr hn hword hscript
  | true =>
    have hfailed : (Compiler.returnStatement expr c).Failed := by
      have hreport : (c.report .returnFromScript).Failed := h.report _ _
      unfold Compiler.returnStatement
      rw [h.body, hscript]
      simp only [if_true]
      split
      · exact failed_stable.emitBareReturn (failed_stable.accept _ hreport)
      · exact failed_stable.emit (failed_stable.expect (hexpr.failed _ hreport) _ _) _
    refine hfailed.outcome ?_
    rintro q ⟨⟨s, rest⟩, ⟨hread, -, hallowed, -⟩, -⟩
    rcases (statement_return_iff hword).mp hread with ⟨semicolon, -, -, rfl⟩ | ⟨e, semicolon, rfl, -, -⟩
    · exact absurd (hscript.symm.trans hallowed) (by decide)
    · exact absurd (hscript.symm.trans hallowed.1) (by decide)

/-! ### Branches and loops -/

/-- The compiler of statements is right where at most `n` tokens are left, and keeps failures. -/
structure ParsesStmt (stmt : Compiler → Compiler) (n : Nat) : Prop where
  reads : ∀ {c : Compiler} {p : Point}, c.At p → p.body.scope.Nested → p.tokens.length ≤ n →
    Outcome (stmt c) (ReadsStmt p.tokens p.body)
  failed : ∀ c, c.Failed → (stmt c).Failed

/-- A condition in parentheses is read in a function. -/
def ReadsCondition (tokens : List Token) (b : Body) (x : Closing) : Prop :=
  ∃ left input, tokens = left :: input ∧ left.kind = .leftParen ∧
    ReadsClosed .rightParen input b b.scope.height x

theorem ReadsCondition.shorter {x : Closing} (h : ReadsCondition tokens b x) :
    x.rest.length < tokens.length := by
  obtain ⟨left, input, rfl, -, hread⟩ := h
  have hlength := hread.read.consumes.shorter
  simp only [List.length_cons] at hlength ⊢
  omega

theorem At.condition (hexpr : ParsesExpr expr n) (h : c.At ⟨tokens, line, b⟩) (hn : tokens.length ≤ n)
    (what what' : Diagnostic.Expectation) :
    Outcome ((expr (c.expect .leftParen what)).expect .rightParen what') fun q =>
      ∃ x, ReadsCondition tokens b x ∧ q = x.point b b.scope.height := by
  have hclosed : ∀ r : Point, Takes .leftParen ⟨tokens, line, b⟩ r → (c.expect .leftParen what).At r →
      Outcome ((expr (c.expect .leftParen what)).expect .rightParen what') fun q => ∃ x,
        ReadsClosed .rightParen r.tokens b b.scope.height x ∧ q = x.point b b.scope.height := by
    rintro _ ⟨left, input, rfl, -, -, rfl⟩ hat
    exact hat.closedExpr hexpr (Nat.le_of_succ_le hn) _ .rightParen rfl _
  have hbind := (h.expect .leftParen (by decide) what).bind
    (fun hf => failed_stable.expect (hexpr.failed _ hf) .rightParen what') hclosed
  refine hbind.iff fun q => ?_
  constructor
  · rintro ⟨_, ⟨left, input, rfl, hleft, -, rfl⟩, x, hread, rfl⟩
    exact ⟨x, ⟨left, input, rfl, hleft, hread⟩, rfl⟩
  · rintro ⟨x, ⟨left, input, rfl, hleft, hread⟩, rfl⟩
    exact ⟨_, ⟨left, input, rfl, hleft, hread.read.consumes.readable, rfl⟩, x, hread, rfl⟩

theorem statement_while_iff {rest : List Token} {s : Stmt} (hword : word.kind = .whileWord) :
    Grammar.Statement (word :: tokens) s rest ↔ ∃ left input e right middle body, tokens = left :: input ∧
      left.kind = .leftParen ∧ Grammar.Expression .assignment input e (right :: middle) ∧
      right.kind = .rightParen ∧ Grammar.Statement middle body rest ∧ s = .whileLoop e right.line body := by
  constructor
  · intro h
    cases h with
    | whileLoop _ hopen he hclose hs => exact ⟨_, _, _, _, _, _, rfl, hopen, he, hclose, hs, rfl⟩
    | expression he =>
      have hstarts := he.starts_cons
      rw [hword] at hstarts
      cases hstarts
    | print h | bareReturn h | ret h | ifThen h | ifElse h | forLoop h | block h => simp [hword] at h
  · rintro ⟨left, input, e, right, middle, body, rfl, hopen, he, hclose, hs, rfl⟩
    exact .whileLoop hword hopen he hclose hs

/-- The end of a loop with a condition: the way back, the end of the way out, and a pop. -/
theorem At.closeLoop {place start : Nat} (h : c.At p) (b : Body) (hplace : place = b.size + 1)
    (exitLine : UInt32)
    (height : Nat) (y : Fragment) (distance : Nat) (hdistance : p.body.size + 3 - start = distance)
    (hbody : p.body = b.add (.single exitLine (height + 1) (.jumpIfFalse 0xffff) ++ y)) :
    Outcome (((c.emitLoop start).closeJump place).emit .pop) fun q =>
      (distance ≤ maxJump ∧ y.size + 3 ≤ maxJump) ∧
      q = ⟨p.tokens, p.line,
        b.add (.single exitLine (height + 1) (.jumpIfFalse (operandWord (y.size + 3))) ++ y ++
        .single p.line height (.loop (operandWord distance)) ++ .single p.line (height + 1) .pop)⟩ := by
  have hbind := (h.emitLoop height distance hdistance).bindGuard
      (fun hf => failed_stable.emit (failed_stable.closeJump hf place) .pop) fun _ hat =>
    (hat.closeJump bytes_jumpIfFalse b hplace exitLine (height + 1)
      (y ++ .single p.line height (.loop (operandWord distance)))
      (by simp [hbody, Body.add_add, Fragment.append_assoc])).bindGuard (fun hf => failed_stable.emit hf .pop)
      fun _ hat' => (hat'.emit .pop (height + 1)).outcome
  refine hbind.iff fun q => ?_
  rw [and_assoc]
  simp [Point.add, Body.add_add, Fragment.append_assoc, Instruction.size, Instruction.opcode, Opcode.width]

/-- A statement that is read after a condition. -/
def ReadsBranch (x : Closing) (b : Body) (y : Stmt × List Token) : Prop :=
  Grammar.Statement x.rest y.1 y.2 ∧ Readable y.2 ∧ y.1.Fits (b.add (x.e.code b.locals b.count b.scope.height))

/-- The code of a statement after a condition. -/
def branchCode (b : Body) (x : Closing) (s : Stmt) : Fragment :=
  s.code b.scope (b.count + (x.e.code b.locals b.count b.scope.height).constants.length)

/-- A statement that is done only if the condition before it is truthy. -/
theorem At.branch {x : Closing} (hstmt : ParsesStmt stmt n) (h : c.At (x.point b b.scope.height))
    (hnested : b.scope.Nested) (hn : x.rest.length ≤ n) :
    Outcome (stmt ((c.openJump .jumpIfFalse).2.emit .pop)) fun q => ∃ y, ReadsBranch x b y ∧
      q = ⟨y.2, y.1.endLine, b.add (x.e.code b.locals b.count b.scope.height ++
        .single x.token.line (b.scope.height + 1) (.jumpIfFalse 0xffff) ++
        .single x.token.line (b.scope.height + 1) .pop ++ branchCode b x y.1)⟩ := by
  have hinner := hstmt.reads ((h.openJump .jumpIfFalse (b.scope.height + 1)).emit .pop (b.scope.height + 1))
    hnested hn
  refine hinner.iff fun q => exists_congr fun y => ?_
  simp [Closing.point, ReadsBranch, branchCode, Stmt.Fits, Body.add_add]

/-- The body of a `while` statement after its condition. -/
theorem At.whileBody {start : Nat} {x : Closing} (hstmt : ParsesStmt stmt n)
    (h : c.At (x.point b b.scope.height))
    (hnested : b.scope.Nested) (hn : x.rest.length ≤ n) (hstart : start = b.size) :
    Outcome ((((stmt ((c.openJump .jumpIfFalse).2.emit .pop)).emitLoop start).closeJump
      (c.openJump .jumpIfFalse).1).emit .pop) fun q => ∃ y, ReadsBranch x b y ∧
        (x.e.length + 4 + y.1.length + 3 ≤ maxJump ∧ y.1.length + 4 ≤ maxJump) ∧
        q = ⟨y.2, y.1.endLine, b.add ((Stmt.whileLoop x.e x.token.line y.1).code b.scope b.count)⟩ := by
  have hplace := h.openJump_place .jumpIfFalse rfl
  have hbind := (h.branch hstmt hnested hn).bindOver
    (fun hf => failed_stable.emit (failed_stable.closeJump (failed_stable.emitLoop hf start)
      (c.openJump .jumpIfFalse).1) .pop)
    fun y _ hat => hat.closeLoop (b.add (x.e.code b.locals b.count b.scope.height)) hplace x.token.line
      b.scope.height
      (.single x.token.line (b.scope.height + 1) .pop ++ branchCode b x y.1)
        (x.e.length + 4 + y.1.length + 3) ?_ ?_
  · refine hbind.iff fun q => exists_congr fun y => ?_
    have hsize : 1 + y.1.length + 3 = y.1.length + 4 := by omega
    simp [branchCode, Stmt.code, Stmt.size_code, Body.add_add, Fragment.append_assoc, Instruction.size,
      Instruction.opcode, Opcode.width, hsize]
  · simp [hstart, branchCode, Expr.size_code, Stmt.size_code, Instruction.size, Instruction.opcode,
      Opcode.width]
    omega
  · simp [Body.add_add, Fragment.append_assoc]

theorem At.whileStatement (hexpr : ParsesExpr expr n) (hstmt : ParsesStmt stmt n) (h : c.At ⟨tokens, line, b⟩)
    (hnested : b.scope.Nested) (hn : tokens.length ≤ n) (hword : word.kind = .whileWord) :
    Outcome (whileStatement expr stmt c) (ReadsStmt (word :: tokens) b) := by
  have hbind := (h.condition hexpr hn .openWhile .closeCondition).bindOver
    (d := Compiler.whileStatement expr stmt c)
    (fun hf => failed_stable.emit (failed_stable.closeJump (failed_stable.emitLoop (hstmt.failed _
      (failed_stable.emit (failed_stable.openJump hf .jumpIfFalse) .pop)) _) _) .pop)
    fun x hx hat => hat.whileBody hstmt hnested (Nat.le_trans (Nat.le_of_lt hx.shorter) hn) h.codeSize
  refine hbind.iff fun q => ?_
  constructor
  · rintro ⟨⟨e, right, middle⟩, ⟨left, input, rfl, hopen, he, hclose, hmiddle, hallowed, hroom⟩, ⟨s, rest⟩,
      ⟨hs, hreadable, hallowed', hroom'⟩, ⟨hback, -⟩, rfl⟩
    refine ⟨(.whileLoop e right.line s, rest), ⟨.whileLoop hword hopen he hclose hs, hreadable,
      ⟨hallowed, hallowed', hback⟩, ?_⟩, rfl⟩
    simp [Stmt.code] at hroom' ⊢
    omega
  · rintro ⟨⟨s, rest⟩, ⟨hread, hreadable, hallowed, hroom⟩, rfl⟩
    obtain ⟨left, input, e, right, middle, body, rfl, hopen, he, hclose, hs, rfl⟩ :=
      (statement_while_iff hword).mp hread
    simp [Stmt.code] at hroom
    refine ⟨⟨e, right, middle⟩, ⟨left, input, rfl, hopen, he, hclose, hs.consumes.readable, hallowed.1, ?_⟩,
      (body, rest), ⟨hs, hreadable, hallowed.2.1, ?_⟩, ⟨hallowed.2.2, ?_⟩, rfl⟩
    · dsimp only
      omega
    · simp
      omega
    · have := hallowed.2.2
      dsimp only
      omega

/-- The second branch of an `if` statement, if there is one, and the end of the jump over it. -/
def elsePart (stmt : Compiler → Compiler) (place : Nat) (c : Compiler) : Compiler :=
  (if c.sees .elseWord then stmt c.accept else c).closeJump place

theorem Failed.elsePart (hstmt : ParsesStmt stmt n) (h : c.Failed) (place : Nat) :
    (elsePart stmt place c).Failed := by
  refine failed_stable.closeJump ?_ place
  split
  · exact hstmt.failed _ (failed_stable.accept _ h)
  · exact h

theorem At.elsePart {place : Nat} {jumpLine popLine : UInt32} {height : Nat} (hstmt : ParsesStmt stmt n)
    (h : c.At ⟨tokens, line,
      b.add (.single jumpLine height (.jump 0xffff) ++ .single popLine (height + 1) .pop)⟩)
    (hnested : b.scope.Nested) (hn : tokens.length ≤ n) (hplace : place = b.size + 1) :
    Outcome (elsePart stmt place c) fun q =>
      ((∀ token ∈ tokens.head?, token.kind ≠ .elseWord) ∧ q = ⟨tokens, line, b.add (.single jumpLine height
        (.jump (operandWord 1)) ++ .single popLine (height + 1) .pop)⟩) ∨
      ∃ other last, tokens = other :: last ∧ other.kind = .elseWord ∧ ∃ y : Stmt × List Token,
        (Grammar.Statement last y.1 y.2 ∧ Readable y.2 ∧ y.1.Fits b) ∧ 1 + y.1.length ≤ maxJump ∧
        q = ⟨y.2, y.1.endLine, b.add (.single jumpLine height (.jump (operandWord (1 + y.1.length))) ++
          .single popLine (height + 1) .pop ++ y.1.code b.scope b.count)⟩ := by
  obtain ⟨token, rest, htokens, -, -⟩ := h.exists_tokens
  change tokens = token :: rest at htokens
  subst htokens
  unfold Compiler.elsePart
  by_cases hsees : c.sees .elseWord = true
  · rw [if_pos hsees]
    have hother : token.kind = .elseWord := (h.sees rfl _).mp hsees
    have hbind := (h.accept rfl (hother ▸ by decide)).bindGuard
      (fun hf => failed_stable.closeJump (hstmt.failed _ hf) place) fun _ hat =>
      (hstmt.reads hat hnested (Nat.le_of_succ_le hn)).bindOver
        (fun hf => failed_stable.closeJump hf place) fun y _ hat' =>
        hat'.closeJump bytes_jump b hplace jumpLine height
          (.single popLine (height + 1) .pop ++ y.1.code b.scope b.count)
          (by simp [Body.add_add, Fragment.append_assoc])
    refine hbind.iff fun q => ?_
    simp only [Stmt.Fits, Body.scope_add, Body.isScript_add, Body.count_add, Fragment.constants_append,
      Fragment.constants_single, List.append_nil, List.length_nil, Nat.add_zero, Fragment.size_append,
      Fragment.size_single,
      Stmt.size_code, Instruction.size, Instruction.opcode, Opcode.width, ← Fragment.append_assoc]
    constructor
    · rintro ⟨-, y, hy, hfits, rfl⟩
      exact Or.inr ⟨token, rest, rfl, hother, y, hy, hfits, rfl⟩
    · rintro (⟨hno, -⟩ | ⟨_, _, heq, -, y, hy, hfits, rfl⟩)
      · exact absurd hother (hno token rfl)
      · cases heq
        exact ⟨hy.1.consumes.readable, y, hy, hfits, rfl⟩
  · rw [if_neg hsees]
    have hclosed := h.closeJump bytes_jump b hplace jumpLine height (.single popLine (height + 1) .pop) rfl
    have hother : token.kind ≠ .elseWord := fun heq => hsees ((h.sees rfl _).mpr heq)
    refine hclosed.iff fun q => ?_
    constructor
    · rintro ⟨-, rfl⟩
      refine Or.inl ⟨?_, rfl⟩
      rintro _ ⟨⟩
      exact hother
    · rintro (⟨-, rfl⟩ | ⟨_, _, heq, hkind, -⟩)
      · exact ⟨by rw [Fragment.size_single]; decide, rfl⟩
      · cases heq
        exact absurd hkind hother

theorem statement_if_iff {rest : List Token} {s : Stmt} (hword : word.kind = .ifWord) :
    Grammar.Statement (word :: tokens) s rest ↔ ∃ left input e right middle thenPart last,
      tokens = left :: input ∧
      left.kind = .leftParen ∧ Grammar.Expression .assignment input e (right :: middle) ∧
      right.kind = .rightParen ∧ Grammar.Statement middle thenPart last ∧
      (((∀ token ∈ last.head?, token.kind ≠ .elseWord) ∧ rest = last ∧ s = .ifElse e right.line thenPart none) ∨
      ∃ other next elsePart, last = other :: next ∧ other.kind = .elseWord ∧
      Grammar.Statement next elsePart rest ∧
        s = .ifElse e right.line thenPart (some elsePart)) := by
  constructor
  · intro h
    cases h with
    | ifThen _ hopen he hclose hs helse =>
      exact ⟨_, _, _, _, _, _, _, rfl, hopen, he, hclose, hs, Or.inl ⟨helse, rfl, rfl⟩⟩
    | ifElse _ hopen he hclose hs hother ht =>
      exact ⟨_, _, _, _, _, _, _, rfl, hopen, he, hclose, hs, Or.inr ⟨_, _, _, rfl, hother, ht, rfl⟩⟩
    | expression he =>
      have hstarts := he.starts_cons
      rw [hword] at hstarts
      cases hstarts
    | print h | bareReturn h | ret h | whileLoop h | forLoop h | block h => simp [hword] at h
  · rintro ⟨left, input, e, right, middle, thenPart, last, rfl, hopen, he, hclose, hs,
      ⟨helse, rfl, rfl⟩ | ⟨other, next, elsePart, rfl, hother, ht, rfl⟩⟩
    · exact .ifThen hword hopen he hclose hs helse
    · exact .ifElse hword hopen he hclose hs hother ht

/-- The code of an `if` statement before its second branch. -/
def ifHead (b : Body) (x : Closing) (s : Stmt) : Fragment :=
  x.e.code b.locals b.count b.scope.height ++
    .single x.token.line (b.scope.height + 1) (.jumpIfFalse (operandWord (s.length + 4))) ++
    .single x.token.line (b.scope.height + 1) .pop ++ branchCode b x s

/-- The end of the first branch of an `if` statement, up to the pop before the second. -/
def closeBranch (place : Nat) (c : Compiler) : Compiler := ((c.openJump .jump).2.closeJump place).emit .pop

theorem At.closeBranch {x : Closing} {s : Stmt} {place : Nat} (h : c.At ⟨tokens, s.endLine,
      b.add (x.e.code b.locals b.count b.scope.height ++ .single x.token.line (b.scope.height + 1)
        (.jumpIfFalse 0xffff) ++ .single x.token.line (b.scope.height + 1) .pop ++ branchCode b x s)⟩)
    (hplace : place = (b.add (x.e.code b.locals b.count b.scope.height)).size + 1) :
    Outcome (closeBranch place c) fun q => s.length + 4 ≤ maxJump ∧
      q = ⟨tokens, s.endLine, (b.add (ifHead b x s)).add (.single s.endLine b.scope.height (.jump 0xffff) ++
        .single s.endLine (b.scope.height + 1) .pop)⟩ := by
  have hbind := ((h.openJump .jump b.scope.height).closeJump bytes_jumpIfFalse
    (b.add (x.e.code b.locals b.count b.scope.height)) hplace x.token.line (b.scope.height + 1)
    (.single x.token.line (b.scope.height + 1) .pop ++ branchCode b x s ++
      .single s.endLine b.scope.height (.jump 0xffff))
        (by simp [Body.add_add, Fragment.append_assoc])).bindGuard
    (fun hf => failed_stable.emit hf .pop) fun _ hat => (hat.emit .pop (b.scope.height + 1)).outcome
  refine hbind.iff fun q => ?_
  have hsize : 1 + (s.length + 3) = s.length + 4 := by omega
  simp [ifHead, branchCode, Stmt.size_code, Point.add, Body.add_add, Fragment.append_assoc, Instruction.size,
    Instruction.opcode, Opcode.width, hsize]

/-- The place of the jump over the second branch of an `if` statement. -/
theorem At.branch_place {x : Closing} {s : Stmt} (h : c.At ⟨tokens, s.endLine,
      b.add (x.e.code b.locals b.count b.scope.height ++ .single x.token.line (b.scope.height + 1)
        (.jumpIfFalse 0xffff) ++ .single x.token.line (b.scope.height + 1) .pop ++ branchCode b x s)⟩) :
    (c.openJump .jump).1 = (b.add (ifHead b x s)).size + 1 := by
  rw [h.openJump_place .jump rfl]
  simp [ifHead, Instruction.size, Instruction.opcode]

theorem At.ifStatement (hexpr : ParsesExpr expr n) (hstmt : ParsesStmt stmt n) (h : c.At ⟨tokens, line, b⟩)
    (hnested : b.scope.Nested) (hn : tokens.length ≤ n) (hword : word.kind = .ifWord) :
    Outcome (ifStatement expr stmt c) (ReadsStmt (word :: tokens) b) := by
  have hrest : ∀ d : Compiler, d.Failed → ∀ place, (Compiler.elsePart stmt (d.openJump .jump).1
      (Compiler.closeBranch place d)).Failed := fun d hf place =>
    (failed_stable.emit (failed_stable.closeJump (failed_stable.openJump hf .jump) place) .pop).elsePart hstmt _
  have hbind := (h.condition hexpr hn .openIf .closeCondition).bindOver
    (fun hf => hrest _ (hstmt.failed _ (failed_stable.emit (failed_stable.openJump hf .jumpIfFalse) .pop))
      (((expr (c.expect .leftParen .openIf)).expect .rightParen .closeCondition).openJump .jumpIfFalse).1)
    fun x hx hat => (hat.branch hstmt hnested (Nat.le_trans (Nat.le_of_lt hx.shorter) hn)).bindOver
      (fun hf => hrest _ hf _) fun y hy hat' =>
        (hat'.closeBranch (hat.openJump_place .jumpIfFalse rfl)).bindGuard
        (fun hf => hf.elsePart hstmt _) fun _ hat'' => hat''.elsePart hstmt hnested ?_ hat'.branch_place
  · refine hbind.iff fun q => ?_
    constructor
    · rintro ⟨⟨e, right, middle⟩, ⟨left, input, rfl, hopen, he, hclose, -, hallowed, hroom⟩, ⟨s, last⟩,
        ⟨hs, hreadable, hallowed', hroom'⟩, hskip, ⟨hno, rfl⟩ | ⟨other, next, rfl, hother, ⟨t, rest⟩,
        ⟨ht, hreadable', hallowed'', hroom''⟩, hskip', rfl⟩⟩
      · refine ⟨(.ifElse e right.line s none, last), ⟨.ifThen hword hopen he hclose hs hno, hreadable,
          ⟨hallowed, hallowed', hskip⟩, ?_⟩, ?_⟩
        · simp [Stmt.code] at hroom' ⊢
          omega
        · simp [ifHead, branchCode, Stmt.code, Stmt.endLine, Body.add_add, Fragment.append_assoc]
      · refine ⟨(.ifElse e right.line s (some t), rest),
          ⟨.ifElse hword hopen he hclose hs hother ht, hreadable',
          ⟨hallowed, hallowed', hallowed'', hskip, hskip'⟩, ?_⟩, ?_⟩
        · simp [ifHead, branchCode, Stmt.code, Nat.add_assoc] at hroom'' ⊢
          omega
        · simp [ifHead, branchCode, Stmt.code, Stmt.endLine, Body.add_add, Fragment.append_assoc, Nat.add_assoc]
    · rintro ⟨⟨s, rest⟩, ⟨hread, hreadable, hallowed, hroom⟩, rfl⟩
      obtain ⟨left, input, e, right, middle, s, last, rfl, hopen, he, hclose, hs, hcases⟩ :=
        (statement_if_iff hword).mp hread
      have hmiddle := hs.consumes.readable
      rcases hcases with ⟨hno, rfl, rfl⟩ | ⟨other, next, t, rfl, hother, ht, rfl⟩
      · simp [Stmt.code] at hroom
        refine ⟨⟨e, right, middle⟩, ⟨left, input, rfl, hopen, he, hclose, hmiddle,
          hallowed.1, by dsimp only; omega⟩,
          (s, rest), ⟨hs, hreadable, hallowed.2.1, ?_⟩, hallowed.2.2, Or.inl ⟨hno, ?_⟩⟩
        · simp
          omega
        · simp [ifHead, branchCode, Stmt.code, Stmt.endLine, Body.add_add, Fragment.append_assoc]
      · simp [Stmt.code, Nat.add_assoc] at hroom
        refine ⟨⟨e, right, middle⟩, ⟨left, input, rfl, hopen, he, hclose, hmiddle,
          hallowed.1, by dsimp only; omega⟩,
          (s, other :: next), ⟨hs, readable_cons hother (by decide), hallowed.2.1, ?_⟩, hallowed.2.2.2.1,
          Or.inr ⟨other, next, rfl, hother, (t, rest), ⟨ht, hreadable, hallowed.2.2.1, ?_⟩,
          hallowed.2.2.2.2, ?_⟩⟩
        · simp
          omega
        · simp [ifHead, branchCode, Nat.add_assoc]
          omega
        · simp [ifHead, branchCode, Stmt.code, Stmt.endLine, Body.add_add, Fragment.append_assoc, Nat.add_assoc]
  · have hlength := hy.1.consumes.shorter
    have hcondition := hx.shorter
    omega

end Compiler

end Lox
