import Lox.Proofs.Compilation.Variable

/-! # Compiling `for` statements

A `for` statement has a scope of its own for the variable of its first clause. The code of the third
clause stands before the body, so that there are up to four jumps: out of the loop, over the third clause,
and two ways back. -/

namespace Lox

/-- The first clause of a `for` statement obeys the rules in a function, and there is room for its constants. -/
def Initializer.Fits (b : Body) (i : Initializer) : Prop :=
  i.Allowed b.scope ∧ b.count + (i.code b.scope b.count).constants.length ≤ Chunk.maxConstants

namespace Compiler

variable {expr stmt : Compiler → Compiler} {n : Nat} {c : Compiler} {p : Point} {tokens : List Token}
    {line : UInt32}
  {b : Body}

/-! ### The first clause -/

theorem first_empty_iff {rest : List Token} {i : Initializer} {token : Token}
    (hempty : token.kind = .semicolon) :
    Grammar.First (token :: tokens) i rest ↔ i = .empty ∧ rest = tokens := by
  constructor
  · intro h
    cases h with
    | empty => exact ⟨rfl, rfl⟩
    | var hword => exact absurd (hempty.symm.trans hword) (by decide)
    | expression he =>
      have hstarts := he.starts_cons
      rw [hempty] at hstarts
      cases hstarts
  · rintro ⟨rfl, rfl⟩
    exact .empty hempty

theorem first_var_iff {rest : List Token} {i : Initializer} {token : Token} (hvar : token.kind = .varWord) :
    Grammar.First (token :: tokens) i rest ↔ ∃ v, i = .var v ∧ Grammar.VariableDecl tokens v rest := by
  constructor
  · intro h
    cases h with
    | empty hempty => exact absurd (hvar.symm.trans hempty) (by decide)
    | var _ hread => exact ⟨_, rfl, hread⟩
    | expression he =>
      have hstarts := he.starts_cons
      rw [hvar] at hstarts
      cases hstarts
  · rintro ⟨v, rfl, hread⟩
    exact .var hvar hread

theorem first_iff {rest : List Token} {i : Initializer} {token : Token} (hexpr : token.kind ≠ .semicolon)
    (hvar : token.kind ≠ .varWord) : Grammar.First (token :: tokens) i rest ↔ ∃ e semicolon,
      i = .expression e semicolon.line ∧ Grammar.Expression .assignment (token :: tokens) e
        (semicolon :: rest) ∧ semicolon.kind = .semicolon := by
  constructor
  · intro h
    cases h with
    | empty h => exact absurd h hexpr
    | var h => exact absurd h hvar
    | expression he hsemicolon => exact ⟨_, _, rfl, he, hsemicolon⟩
  · rintro ⟨e, semicolon, rfl, he, hsemicolon⟩
    exact .expression he hsemicolon

/-- A first clause is read in a function. -/
def ReadsFirst (tokens : List Token) (b : Body) (x : Initializer × List Token) : Prop :=
  Grammar.First tokens x.1 x.2 ∧ Readable x.2 ∧ x.1.Fits b

theorem At.forInitializer (hexpr : ParsesExpr expr n) (h : c.At ⟨tokens, line, b⟩) (hnested : b.scope.Nested)
    (hn : tokens.length ≤ n) :
    Outcome (forInitializer expr c) fun q => ∃ x, ReadsFirst tokens b x ∧ q = ⟨x.2,
      (forInitializer expr c).previous.line,
      (b.add (x.1.code b.scope b.count)).setScope (b.scope.after x.1.name?)⟩ := by
  obtain ⟨token, others, htokens, -, -⟩ := h.exists_tokens
  change tokens = token :: others at htokens
  subst htokens
  unfold Compiler.forInitializer
  by_cases hempty : c.sees .semicolon = true
  · rw [if_pos hempty]
    have hkind : token.kind = .semicolon := (h.sees rfl _).mp hempty
    have haccept : Outcome c.accept fun q => ∃ _ : Unit, Readable others ∧ q = ⟨others, token.line, b⟩ :=
      (h.accept rfl (hkind ▸ by decide)).iff fun q => (exists_const Unit).symm
    refine haccept.anyLine.iff fun q => ?_
    constructor
    · rintro ⟨-, hreadable, rfl⟩
      refine ⟨(.empty, others), ⟨(first_empty_iff hkind).mpr ⟨rfl, rfl⟩, hreadable, trivial, h.room⟩, ?_⟩
      simp [Initializer.code, Initializer.name?, Scope.after]
    · rintro ⟨⟨i, rest⟩, ⟨hread, hreadable, -⟩, rfl⟩
      obtain ⟨rfl, rfl⟩ := (first_empty_iff hkind).mp hread
      refine ⟨(), hreadable, ?_⟩
      simp [Initializer.code, Initializer.name?, Scope.after]
  · rw [if_neg hempty]
    have hnot : token.kind ≠ .semicolon := fun heq => hempty ((h.sees rfl _).mpr heq)
    by_cases hvar : c.sees .varWord = true
    · rw [if_pos hvar]
      have hkind : token.kind = .varWord := (h.sees rfl _).mp hvar
      have hbind := (h.accept rfl (hkind ▸ by decide)).bindGuard (failed_stable.varDeclaration hexpr.failed)
        fun _ hat => hat.varDeclaration hexpr hnested (Nat.le_of_succ_le hn)
      have hindexed : Outcome (Compiler.varDeclaration expr c.accept) fun q => ∃ x : Variable × List Token,
          (Readable others ∧ Grammar.VariableDecl others x.1 x.2 ∧ Readable x.2 ∧ x.1.Fits b) ∧
          q = ⟨x.2, x.1.line, (b.add (x.1.code b.scope b.count)).setScope (b.scope.declare x.1.name)⟩ :=
        hbind.iff fun q => by
          constructor
          · rintro ⟨hothers, x, hx, hq⟩
            exact ⟨x, ⟨hothers, hx⟩, hq⟩
          · rintro ⟨x, ⟨hothers, hx⟩, hq⟩
            exact ⟨hothers, x, hx, hq⟩
      refine hindexed.anyLine.iff fun q => ?_
      constructor
      · rintro ⟨⟨v, rest⟩, ⟨-, hread, hreadable, hfits⟩, rfl⟩
        exact ⟨(.var v, rest), ⟨(first_var_iff hkind).mpr ⟨v, rfl, hread⟩, hreadable, hfits⟩, rfl⟩
      · rintro ⟨⟨i, rest⟩, ⟨hread, hreadable, hfits⟩, rfl⟩
        obtain ⟨v, rfl, hv⟩ := (first_var_iff hkind).mp hread
        exact ⟨(v, rest), ⟨hv.consumes.readable, hv, hreadable, hfits⟩, rfl⟩
    · rw [if_neg hvar]
      have hnot' : token.kind ≠ .varWord := fun heq => hvar ((h.sees rfl _).mpr heq)
      refine (h.expressionStatement_closed hexpr hn b.scope.height).anyLine.iff fun q => ?_
      constructor
      · rintro ⟨⟨e, semicolon, rest⟩, ⟨hread, hkind, hreadable, hallowed, hroom⟩, rfl⟩
        refine ⟨(.expression e semicolon.line, rest), ⟨.expression hread hkind, hreadable, hallowed, ?_⟩, ?_⟩
        · simpa [Initializer.code] using hroom
        · simp [Closing.point, Initializer.code, Initializer.name?, Scope.after, Body.add_add]
      · rintro ⟨⟨i, rest⟩, ⟨hread, hreadable, hallowed, hroom⟩, rfl⟩
        obtain ⟨e, semicolon, rfl, he, hkind⟩ := (first_iff hnot hnot').mp hread
        refine ⟨⟨e, semicolon, rest⟩, ⟨he, hkind, hreadable, hallowed, ?_⟩, ?_⟩
        · simpa [Initializer.code] using hroom
        · simp [Closing.point, Initializer.code, Initializer.name?, Scope.after, Body.add_add]

/-! ### The second clause -/

/-- A second clause is read in a function, with its line. -/
structure ReadsSecond (tokens : List Token) (b : Body) (condition : Option Expr) (line : UInt32)
    (rest : List Token) : Prop
    where
  read : Grammar.Second tokens condition line rest
  readable : Readable rest
  fits : ∀ e ∈ condition, e.Fits b b.scope.height

/-- How many bytes the placeholder of a jump out of a loop would cross after its pop. -/
abbrev openEnd : Nat := 0xfffe

/-- The code of a second clause in a function, with the number of bytes to the end of the loop. -/
abbrev conditionIn (b : Body) (line : UInt32) (rest : Nat) (condition : Option Expr) : Fragment :=
  Stmt.conditionCode b.locals b.count b.scope.height line rest condition

theorem second_empty {rest : List Token} {condition : Option Expr} {token : Token}
    (hempty : token.kind = .semicolon)
    (h : Grammar.Second (token :: tokens) condition line rest) : condition = none ∧ line = token.line ∧
    rest = tokens := by
  cases h with
  | empty => exact ⟨rfl, rfl, rfl⟩
  | expression he =>
    have hstarts := he.starts_cons
    rw [hempty] at hstarts
    cases hstarts

theorem second_iff {rest : List Token} {condition : Option Expr} {token : Token}
    (hempty : token.kind ≠ .semicolon) :
    Grammar.Second (token :: tokens) condition line rest ↔ ∃ e semicolon, condition = some e ∧
      line = semicolon.line ∧
      Grammar.Expression .assignment (token :: tokens) e (semicolon :: rest) ∧ semicolon.kind = .semicolon := by
  constructor
  · intro h
    cases h with
    | empty h => exact absurd h hempty
    | expression he hsemicolon => exact ⟨_, _, rfl, rfl, he, hsemicolon⟩
  · rintro ⟨e, semicolon, rfl, rfl, he, hsemicolon⟩
    exact .expression he hsemicolon

theorem At.forCondition (hexpr : ParsesExpr expr n) (h : c.At ⟨tokens, line, b⟩) (hn : tokens.length ≤ n) :
    Outcome (forCondition expr c).2 (fun q => ∃ x : Option Expr × UInt32 × List Token,
      ReadsSecond tokens b x.1 x.2.1 x.2.2 ∧ q = ⟨x.2.2, x.2.1, b.add (conditionIn b x.2.1 openEnd x.1)⟩) ∧
    ∀ condition l rest, ReadsSecond tokens b condition l rest →
      (forCondition expr c).1 = condition.map fun e =>
        (b.add (e.code b.locals b.count b.scope.height)).size + 1 := by
  obtain ⟨token, others, htokens, -, -⟩ := h.exists_tokens
  change tokens = token :: others at htokens
  subst htokens
  unfold Compiler.forCondition
  by_cases hempty : c.sees .semicolon = true
  · rw [if_pos hempty]
    have hkind : token.kind = .semicolon := (h.sees rfl _).mp hempty
    constructor
    · refine (h.accept rfl (hkind ▸ by decide)).iff fun q => ?_
      constructor
      · rintro ⟨hreadable, rfl⟩
        refine ⟨(none, token.line, others), ⟨.empty hkind, hreadable, fun e he => ?_⟩, ?_⟩
        · cases he
        · simp [Stmt.conditionCode]
      · rintro ⟨⟨condition, l, rest⟩, ⟨hread, hreadable, -⟩, rfl⟩
        obtain ⟨rfl, rfl, rfl⟩ := second_empty hkind hread
        refine ⟨hreadable, ?_⟩
        simp [Stmt.conditionCode]
    · rintro condition l rest ⟨hread, -, -⟩
      obtain ⟨rfl, rfl, rfl⟩ := second_empty hkind hread
      rfl
  · rw [if_neg hempty]
    have hnot : token.kind ≠ .semicolon := fun heq => hempty ((h.sees rfl _).mpr heq)
    have hclosed := h.closedExpr hexpr hn b.scope.height .semicolon rfl .endCondition
    constructor
    · have hbind :=
        hclosed.bindOver (fun hf => failed_stable.emit (failed_stable.openJump hf .jumpIfFalse) .pop)
        fun x _ hat => ((hat.openJump .jumpIfFalse (b.scope.height + 1)).emit .pop (b.scope.height + 1)).outcome
      refine hbind.iff fun q => ?_
      constructor
      · rintro ⟨⟨e, semicolon, rest⟩, ⟨hread, hkind, hreadable, hfits⟩, rfl⟩
        refine ⟨(some e, semicolon.line, rest), ⟨.expression hread hkind, hreadable, fun e' he' => ?_⟩, ?_⟩
        · cases he'
          exact hfits
        · simp [Closing.point, Point.add, Stmt.conditionCode, Body.add_add]
          rfl
      · rintro ⟨⟨condition, l, rest⟩, ⟨hread, hreadable, hfits⟩, rfl⟩
        obtain ⟨e, semicolon, rfl, rfl, he, hkind⟩ := (second_iff hnot).mp hread
        refine ⟨⟨e, semicolon, rest⟩, ⟨he, hkind, hreadable, hfits e rfl⟩, ?_⟩
        simp [Closing.point, Point.add, Stmt.conditionCode, Body.add_add]
        rfl
    · rintro condition l rest ⟨hread, hreadable, hfits⟩
      obtain ⟨e, semicolon, rfl, rfl, he, hkind⟩ := (second_iff hnot).mp hread
      have hat := hclosed.1 _ ⟨⟨e, semicolon, rest⟩, ⟨he, hkind, hreadable, hfits e rfl⟩, rfl⟩
      exact congrArg some (hat.openJump_place .jumpIfFalse rfl)

/-! ### The third clause -/

/-- A third clause is read in a function after a condition of the given length. -/
structure ReadsThird (tokens : List Token) (b : Body) (conditionLength : Nat)
    (increment : Option (Expr × UInt32)) (rest : List Token) : Prop where
  read : Grammar.Third tokens increment rest
  readable : Readable rest
  fits : ∀ e ∈ increment, e.1.Fits b b.scope.height
  back : ∀ e ∈ increment, conditionLength + e.1.length + 7 ≤ maxJump

/-- The code of a third clause in a function. -/
abbrev incrementIn (b : Body) (line : UInt32) (conditionLength : Nat) (increment : Option (Expr × UInt32)) :
    Fragment :=
  Stmt.incrementCode b.locals b.count b.scope.height line conditionLength increment

theorem third_empty {rest : List Token} {increment : Option (Expr × UInt32)} {token : Token}
    (hempty : token.kind = .rightParen) (h : Grammar.Third (token :: tokens) increment rest) :
    increment = none ∧ rest = tokens := by
  cases h with
  | empty => exact ⟨rfl, rfl⟩
  | expression he =>
    have hstarts := he.starts_cons
    rw [hempty] at hstarts
    cases hstarts

theorem third_iff {rest : List Token} {increment : Option (Expr × UInt32)} {token : Token}
    (hempty : token.kind ≠ .rightParen) : Grammar.Third (token :: tokens) increment rest ↔ ∃ e close,
      increment = some (e, close.line) ∧ Grammar.Expression .assignment (token :: tokens) e (close :: rest) ∧
        close.kind = .rightParen := by
  constructor
  · intro h
    cases h with
    | empty h => exact absurd h hempty
    | expression he hclose => exact ⟨_, _, rfl, he, hclose⟩
  · rintro ⟨e, close, rfl, he, hclose⟩
    exact .expression he hclose

/-- The expression of a third clause, its pop and its parenthesis. -/
theorem At.incrementValue (hexpr : ParsesExpr expr n) (h : c.At p) (hn : p.tokens.length ≤ n) (height : Nat) :
    Outcome (((expr c).emit .pop).expect .rightParen .closeClauses) fun q => ∃ x,
      ReadsClosed .rightParen p.tokens p.body height x ∧ q = ⟨x.rest, x.token.line,
        p.body.add (x.e.code p.body.locals p.body.count height ++ .single x.e.endLine (height + 1) .pop)⟩ := by
  have hbind := (hexpr.reads height h hn).reads.bindOver
    (fun hf => failed_stable.expect (failed_stable.emit hf .pop) .rightParen .closeClauses)
    fun x _ hat => (hat.emit .pop (height + 1)).expect .rightParen (by decide) .closeClauses
  refine hbind.iff fun q => ?_
  constructor
  · rintro ⟨⟨e, _⟩, ⟨hread, -, hfits⟩, close, rest, rfl, hkind, hreadable, rfl⟩
    refine ⟨⟨e, close, rest⟩, ⟨(Precedence.expression_iff.mp hread).1, hkind, hreadable, hfits⟩, ?_⟩
    simp [Point.after, Body.add_add]
  · rintro ⟨⟨e, close, rest⟩, ⟨hread, hkind, hreadable, hfits⟩, rfl⟩
    have hcloses : closes close.kind = true := by
      rw [show close.kind = .rightParen from hkind]
      rfl
    obtain ⟨hclosed, hhead⟩ := closed_of_closes rest hcloses
    refine ⟨(e, close :: rest), ⟨Precedence.expression_iff.mpr ⟨hread, hclosed⟩, hhead, hfits⟩, close, rest,
      rfl, hkind, hreadable, ?_⟩
    simp [Point.after, Body.add_add]

/-- A third clause that is not empty. -/
def writeIncrement (expr : Compiler → Compiler) (start : Nat) (c : Compiler) : Compiler :=
  ((((expr (c.openJump .jump).2).emit .pop).expect .rightParen .closeClauses).emitLoop start).closeJump
    (c.openJump .jump).1

theorem At.writeIncrement {start conditionLength : Nat} (hexpr : ParsesExpr expr n) (h : c.At ⟨tokens, line, b⟩)
    (hn : tokens.length ≤ n) (hstart : b.size = start + conditionLength) :
    Outcome (writeIncrement expr start c) fun q => ∃ x, ReadsClosed .rightParen tokens b b.scope.height x ∧
      conditionLength + x.e.length + 7 ≤ maxJump ∧
      q = ⟨x.rest, x.token.line, b.add (incrementIn b line conditionLength (some (x.e, x.token.line)))⟩ := by
  have hopen := h.openJump .jump b.scope.height
  have hplace := h.openJump_place .jump rfl
  have hbind := (hopen.incrementValue hexpr hn b.scope.height).bindOver
    (fun hf => failed_stable.closeJump (failed_stable.emitLoop hf start) (c.openJump .jump).1) fun x _ hat =>
      (hat.emitLoop b.scope.height (conditionLength + x.e.length + 7) ?_).bindGuard
        (fun hf => failed_stable.closeJump hf (c.openJump .jump).1) fun _ hat' =>
        hat'.closeJump bytes_jump b hplace line b.scope.height (x.e.code b.locals b.count b.scope.height ++
          .single x.e.endLine (b.scope.height + 1) .pop ++
          .single x.token.line b.scope.height (.loop (operandWord (conditionLength + x.e.length + 7)))) ?_
  · refine hbind.iff fun q => exists_congr fun x => ?_
    constructor
    · rintro ⟨⟨hread, hkind, hreadable, hfits⟩, hback, -, rfl⟩
      refine ⟨⟨hread, hkind, hreadable, ?_⟩, hback, ?_⟩
      · simpa [Expr.Fits] using hfits
      · simp [Stmt.incrementCode, Expr.size_code, Fragment.append_assoc, Instruction.size, Instruction.opcode,
          Opcode.width]
    · rintro ⟨⟨hread, hkind, hreadable, hfits⟩, hback, rfl⟩
      refine ⟨⟨hread, hkind, hreadable, ?_⟩, hback, ?_, ?_⟩
      · simpa [Expr.Fits] using hfits
      · simp [Expr.size_code, Instruction.size, Instruction.opcode, Opcode.width]
        omega
      · simp [Stmt.incrementCode, Expr.size_code, Fragment.append_assoc, Instruction.size, Instruction.opcode,
          Opcode.width]
  · simp [hstart, Expr.size_code, Instruction.size, Instruction.opcode, Opcode.width]
    omega
  · simp [Body.add_add, Fragment.append_assoc]

/-- Where the body of a `for` statement goes back to: the third clause after its jump, or the
    start of the round. -/
def againAt (b : Body) (start : Nat) (increment : Option (Expr × UInt32)) : Nat :=
  if increment.isSome then b.size + 3 else start

theorem forIncrement_expression (start : Nat) (h : ¬c.sees .rightParen = true) :
    forIncrement expr start c = ((c.openJump .jump).2.codeSize, writeIncrement expr start c) := by
  unfold Compiler.forIncrement
  rw [if_neg h]
  rfl

theorem At.forIncrement {start conditionLength : Nat} (hexpr : ParsesExpr expr n) (h : c.At ⟨tokens, line, b⟩)
    (hn : tokens.length ≤ n) (hstart : b.size = start + conditionLength) :
    Outcome (forIncrement expr start c).2 (fun q => ∃ x : Option (Expr × UInt32) × List Token,
      ReadsThird tokens b conditionLength x.1 x.2 ∧
      q = ⟨x.2, (Compiler.forIncrement expr start c).2.previous.line,
        b.add (incrementIn b line conditionLength x.1)⟩) ∧
    ∀ increment rest, ReadsThird tokens b conditionLength increment rest →
      (Compiler.forIncrement expr start c).1 = againAt b start increment := by
  obtain ⟨token, others, htokens, -, -⟩ := h.exists_tokens
  change tokens = token :: others at htokens
  subst htokens
  by_cases hempty : c.sees .rightParen = true
  · have hkind : token.kind = .rightParen := (h.sees rfl _).mp hempty
    have haccept : Outcome c.accept fun q => ∃ _ : Unit, Readable others ∧ q = ⟨others, token.line, b⟩ :=
      (h.accept rfl (hkind ▸ by decide)).iff fun q => (exists_const Unit).symm
    unfold Compiler.forIncrement
    rw [if_pos hempty]
    constructor
    · refine haccept.anyLine.iff fun q => ?_
      constructor
      · rintro ⟨-, hreadable, rfl⟩
        refine ⟨(none, others), ⟨.empty hkind, hreadable, fun e he => ?_, fun e he => ?_⟩, ?_⟩
        · cases he
        · cases he
        · simp [Stmt.incrementCode]
      · rintro ⟨⟨increment, rest⟩, ⟨hread, hreadable, -, -⟩, rfl⟩
        obtain ⟨rfl, rfl⟩ := third_empty hkind hread
        refine ⟨(), hreadable, ?_⟩
        simp [Stmt.incrementCode]
    · rintro increment rest ⟨hread, -, -, -⟩
      obtain ⟨rfl, rfl⟩ := third_empty hkind hread
      rfl
  · have hnot : token.kind ≠ .rightParen := fun heq => hempty ((h.sees rfl _).mpr heq)
    rw [forIncrement_expression start hempty]
    constructor
    · have hindexed : Outcome (Compiler.writeIncrement expr start c) fun q => ∃ x : Closing,
          (ReadsClosed .rightParen (token :: others) b b.scope.height x ∧
            conditionLength + x.e.length + 7 ≤ maxJump) ∧
          q = ⟨x.rest, x.token.line, b.add (incrementIn b line conditionLength (some (x.e, x.token.line)))⟩ :=
        (h.writeIncrement hexpr hn hstart).iff fun q => exists_congr fun x => and_assoc.symm
      refine hindexed.anyLine.iff fun q => ?_
      constructor
      · rintro ⟨⟨e, close, rest⟩, ⟨⟨hread, hkind, hreadable, hfits⟩, hback⟩, rfl⟩
        refine ⟨(some (e, close.line), rest),
          ⟨.expression hread hkind, hreadable, fun e' he' => ?_, fun e' he' => ?_⟩, rfl⟩
        · cases he'
          exact hfits
        · cases he'
          exact hback
      · rintro ⟨⟨increment, rest⟩, ⟨hread, hreadable, hfits, hback⟩, rfl⟩
        obtain ⟨e, close, rfl, he, hkind⟩ := (third_iff hnot).mp hread
        exact ⟨⟨e, close, rest⟩, ⟨⟨he, hkind, hreadable, hfits _ rfl⟩, hback _ rfl⟩, rfl⟩
    · rintro increment rest ⟨hread, -, -, -⟩
      obtain ⟨e, close, rfl, -, -⟩ := (third_iff hnot).mp hread
      rw [(h.openJump .jump 0).codeSize, againAt, Point.body_add, Body.size_add]
      rfl

/-! ### The body -/

/-- The end of a `for` statement: the way back and, if there is a condition, the end of the way out. -/
def closeFor (toExit : Option Nat) (again : Nat) (c : Compiler) : Compiler :=
  match toExit with
  | some toExit => ((c.emitLoop again).closeJump toExit).emit .pop
  | none => c.emitLoop again

theorem Failed.closeFor (h : c.Failed) (toExit : Option Nat) (again : Nat) :
    (closeFor toExit again c).Failed := by
  have hloop := failed_stable.emitLoop h again
  cases toExit with
  | none => exact hloop
  | some toExit => exact failed_stable.emit (failed_stable.closeJump hloop toExit) .pop

theorem At.closeFor {toExit : Option Nat} {again : Nat} {condition : Option Expr} {f : Fragment}
    {conditionLine : UInt32}
    (h : c.At ⟨tokens, line, b.add (conditionIn b conditionLine openEnd condition ++ f)⟩)
    (hexit : toExit = condition.map fun e => (b.add (e.code b.locals b.count b.scope.height)).size + 1)
    (distance : Nat) (hdistance : b.size + Stmt.conditionLength condition + f.size + 3 - again = distance) :
    Outcome (closeFor toExit again c) fun q =>
      (distance ≤ maxJump ∧ (condition.isSome → 1 + (f.size + 3) ≤ maxJump)) ∧
      q = ⟨tokens, line, b.add (conditionIn b conditionLine (f.size + 3) condition ++ f ++
        .single line b.scope.height (.loop (operandWord distance)) ++
        Stmt.exitCode line b.scope.height condition)⟩ := by
  cases condition with
  | none =>
    subst hexit
    have hloop := h.emitLoop b.scope.height distance (by
      simpa [Stmt.conditionCode, Stmt.conditionLength] using hdistance)
    refine hloop.iff fun q => ?_
    simp [Stmt.conditionCode, Stmt.exitCode, Point.add, Body.add_add]
  | some e =>
    subst hexit
    have hsize : (conditionIn b conditionLine openEnd (some e) ++ f).size =
        Stmt.conditionLength (some e) + f.size := by
      rw [Fragment.size_append, Stmt.size_conditionCode]
    have hback : (b.add (conditionIn b conditionLine openEnd (some e) ++ f)).size + 3 - again = distance := by
      rw [Body.size_add, hsize, ← Nat.add_assoc]
      exact hdistance
    have hloop := h.closeLoop (b.add (e.code b.locals b.count b.scope.height)) rfl conditionLine b.scope.height
      (.single conditionLine (b.scope.height + 1) .pop ++ f) distance hback
      (by simp [Stmt.conditionCode, Body.add_add, Fragment.append_assoc]; rfl)
    have hcross : 1 + f.size + 3 = 1 + (f.size + 3) := by omega
    refine hloop.iff fun q => ?_
    simp [Stmt.conditionCode, Stmt.exitCode, Body.add_add, Fragment.append_assoc, Instruction.size,
      Instruction.opcode, Opcode.width, hcross]

/-- The function under compilation after the second clause of a `for` statement, while the way out is open. -/
abbrev afterSecond (b : Body) (line : UInt32) (condition : Option Expr) : Body :=
  b.add (conditionIn b line openEnd condition)

/-- The function under compilation after the third clause. -/
abbrev afterThird (b : Body) (line : UInt32) (condition : Option Expr) (increment : Option (Expr × UInt32)) :
    Body :=
  (afterSecond b line condition).add
    (incrementIn (afterSecond b line condition) line (Stmt.conditionLength condition) increment)

theorem count_afterSecond (b : Body) (line : UInt32) (rest : Nat) (condition : Option Expr) :
    (afterSecond b line condition).count = b.count + (conditionIn b line rest condition).constants.length := by
  rw [Body.count_add]
  cases condition with
  | none => rfl
  | some e => simp [Stmt.conditionCode]

/-- The code of a `for` statement after its first clause. -/
def loopCode (b : Body) (line : UInt32) (condition : Option Expr) (increment : Option (Expr × UInt32))
    (s : Stmt) :
    Fragment :=
  let inc := incrementIn (afterSecond b line condition) line (Stmt.conditionLength condition) increment
  conditionIn b line (Stmt.incrementLength increment + s.length + 3) condition ++ inc ++
    s.code b.scope (afterThird b line condition increment).count ++
    .single s.endLine b.scope.height (.loop (operandWord (Stmt.roundLength condition increment s.length))) ++
    Stmt.exitCode s.endLine b.scope.height condition

theorem At.forBody {toExit : Option Nat} {again : Nat} {condition : Option Expr}
    {increment : Option (Expr × UInt32)} {conditionLine : UInt32} (hstmt : ParsesStmt stmt n)
    (h : c.At ⟨tokens, line, afterThird b conditionLine condition increment⟩) (hnested : b.scope.Nested)
    (hn : tokens.length ≤ n)
    (hexit : toExit = condition.map fun e => (b.add (e.code b.locals b.count b.scope.height)).size + 1)
    (hagain : again = againAt (afterSecond b conditionLine condition) b.size increment) :
    Outcome (Compiler.closeFor toExit again (stmt c)) fun q => ∃ y : Stmt × List Token,
      (Grammar.Statement tokens y.1 y.2 ∧ Readable y.2 ∧
        y.1.Fits (afterThird b conditionLine condition increment)) ∧
      (Stmt.roundLength condition increment y.1.length ≤ maxJump ∧
        (condition.isSome → 1 + (Stmt.incrementLength increment + y.1.length + 3) ≤ maxJump)) ∧
      q = ⟨y.2, y.1.endLine, b.add (loopCode b conditionLine condition increment y.1)⟩ := by
  have hbind := (hstmt.reads h hnested hn).bindOver (fun hf => hf.closeFor toExit again) fun y _ hat =>
    At.closeFor (f := incrementIn (afterSecond b conditionLine condition) conditionLine
        (Stmt.conditionLength condition)
      increment ++ y.1.code b.scope (afterThird b conditionLine condition increment).count) (by
        simpa [Body.add_add, Fragment.append_assoc] using hat) hexit
      (Stmt.roundLength condition increment y.1.length) ?_
  · refine hbind.iff fun q => exists_congr fun y => ?_
    simp [loopCode, Stmt.size_code, Stmt.size_incrementCode, Fragment.append_assoc]
  · rw [Fragment.size_append, Stmt.size_code, Stmt.size_incrementCode, hagain, againAt]
    cases increment with
    | none =>
      simp [Stmt.roundLength, Stmt.incrementLength]
      omega
    | some e =>
      simp [Stmt.roundLength, Stmt.incrementLength, Stmt.size_conditionCode]
      omega

/-- What is read of a `for` statement after its first clause. -/
structure Loop where
  condition : Option Expr
  line : UInt32
  increment : Option (Expr × UInt32)
  body : Stmt
  rest : List Token

/-- A `for` statement is read after its first clause, and what is read obeys the rules and finds room. -/
structure ReadsLoop (tokens : List Token) (b : Body) (x : Loop) : Prop where
  read : ∃ third last, Grammar.Second tokens x.condition x.line third ∧ Grammar.Third third x.increment last ∧
    Grammar.Statement last x.body x.rest
  readable : Readable x.rest
  condition : ∀ e ∈ x.condition, e.Fits b b.scope.height
  increment : ∀ e ∈ x.increment, e.1.Fits (afterSecond b x.line x.condition) b.scope.height
  body : x.body.Fits (afterThird b x.line x.condition x.increment)
  jumps : Stmt.ForFits x.condition x.increment x.body.length

/-- A `for` statement after its first clause, up to the end of its scope. -/
def forLoop (expr stmt : Compiler → Compiler) (c : Compiler) : Compiler :=
  closeFor (forCondition expr c).1 (forIncrement expr c.codeSize (forCondition expr c).2).1
    (stmt (forIncrement expr c.codeSize (forCondition expr c).2).2)

theorem At.forLoop (hexpr : ParsesExpr expr n) (hstmt : ParsesStmt stmt n) (h : c.At ⟨tokens, line, b⟩)
    (hnested : b.scope.Nested) (hn : tokens.length ≤ n) :
    Outcome (forLoop expr stmt c) fun q => ∃ x, ReadsLoop tokens b x ∧
      q = ⟨x.rest, x.body.endLine, b.add (loopCode b x.line x.condition x.increment x.body)⟩ := by
  obtain ⟨hsecond, hexit⟩ := h.forCondition hexpr hn
  have hthird : ∀ x : Option Expr × UInt32 × List Token, ReadsSecond tokens b x.1 x.2.1 x.2.2 →
      (Compiler.forCondition expr c).2.At ⟨x.2.2, x.2.1, afterSecond b x.2.1 x.1⟩ →
      Outcome (Compiler.forLoop expr stmt c) fun q => ∃ y : Option (Expr × UInt32) × List Token,
        ReadsThird x.2.2 (afterSecond b x.2.1 x.1) (Stmt.conditionLength x.1) y.1 y.2 ∧ ∃ z : Stmt × List Token,
          (Grammar.Statement y.2 z.1 z.2 ∧ Readable z.2 ∧ z.1.Fits (afterThird b x.2.1 x.1 y.1)) ∧
          (Stmt.roundLength x.1 y.1 z.1.length ≤ maxJump ∧
            (x.1.isSome → 1 + (Stmt.incrementLength y.1 + z.1.length + 3) ≤ maxJump)) ∧
          q = ⟨z.2, z.1.endLine, b.add (loopCode b x.2.1 x.1 y.1 z.1)⟩ := by
    intro x hx hat
    have hshorter := hx.read.consumes.shorter
    have hstart : (afterSecond b x.2.1 x.1).size = c.codeSize + Stmt.conditionLength x.1 := by
      rw [Body.size_add, Stmt.size_conditionCode, h.codeSize]
    obtain ⟨hincrement, hagain⟩ := hat.forIncrement hexpr (by omega) hstart
    refine hincrement.bindOver (fun hf => (hstmt.failed _ hf).closeFor _ _) fun y hy hat' => ?_
    have hshorter' := hy.read.consumes.shorter
    have hplace := hagain y.1 y.2 hy
    rw [h.codeSize] at hplace
    exact hat'.forBody hstmt hnested (by omega) (hexit x.1 x.2.1 x.2.2 hx) (by rw [h.codeSize]; exact hplace)
  have hbind := hsecond.bindOver (fun hf => (hstmt.failed _ (failed_stable.forIncrement hexpr.failed hf
    c.codeSize)).closeFor (Compiler.forCondition expr c).1 _) hthird
  refine hbind.iff fun q => ?_
  constructor
  · rintro ⟨⟨condition, l, third⟩, ⟨hsecond, -, hfits⟩, ⟨increment, last⟩, ⟨hthird, -, hfits', hback⟩,
      ⟨s, rest⟩, ⟨hs, hreadable, hfits''⟩, ⟨hround, hout⟩, rfl⟩
    exact ⟨⟨condition, l, increment, s, rest⟩,
      ⟨⟨third, last, hsecond, hthird, hs⟩, hreadable, hfits, hfits', hfits'', ⟨hout, hback, hround⟩⟩, rfl⟩
  · rintro ⟨⟨condition, l, increment, s, rest⟩,
      ⟨⟨third, last, hsecond, hthird, hs⟩, hreadable, hfits, hfits', hfits'', ⟨hout, hback, hround⟩⟩, rfl⟩
    exact ⟨⟨condition, l, third⟩, ⟨hsecond, hthird.consumes.readable, hfits⟩, ⟨increment, last⟩, ⟨hthird,
      hs.consumes.readable, hfits', hback⟩, ⟨s, rest⟩, ⟨hs, hreadable, hfits''⟩, ⟨hround, hout⟩, rfl⟩

/-! ### The whole statement -/

/-- The function under compilation inside the scope of a `for` statement. -/
abbrev inFor (b : Body) : Body := b.setScope b.scope.inner

/-- The function under compilation after the first clause of a `for` statement. -/
abbrev afterFirst (b : Body) (i : Initializer) : Body :=
  ((inFor b).add (i.code b.scope.inner b.count)).setScope (b.scope.inner.after i.name?)

theorem count_afterFirst (b : Body) (i : Initializer) :
    (afterFirst b i).count = b.count + (i.code b.scope.inner b.count).constants.length := by
  rw [Body.count_setScope, Body.count_add, Body.count_setScope]

theorem code_for (b : Body) (i : Initializer) (x : Loop) :
    (Stmt.forLoop i x.condition x.line x.increment x.body).code b.scope b.count =
      i.code b.scope.inner b.count ++ loopCode (afterFirst b i) x.line x.condition x.increment x.body ++
      .pops x.body.endLine b.scope.height ((b.scope.inner.after i.name?).height - b.scope.height) := by
  have hfirst := count_afterFirst b i
  have hsecond := count_afterSecond (afterFirst b i) x.line
    (Stmt.incrementLength x.increment + x.body.length + 3) x.condition
  rw [Stmt.code, loopCode]
  simp only [conditionIn, incrementIn, afterThird, Body.count_add, hfirst, hsecond, Body.scope_add,
    Body.locals_add, Body.scope_setScope, Fragment.append_assoc]
  rfl

theorem constants_loopCode (b : Body) (x : Loop) :
    (afterThird b x.line x.condition x.increment).count + (x.body.code b.scope
      (afterThird b x.line x.condition x.increment).count).constants.length =
      b.count + (loopCode b x.line x.condition x.increment x.body).constants.length := by
  have hsecond := count_afterSecond b x.line (Stmt.incrementLength x.increment + x.body.length + 3) x.condition
  have hexit : (Stmt.exitCode x.body.endLine b.scope.height x.condition).constants = [] := by
    cases x.condition <;> rfl
  have hthird : (afterThird b x.line x.condition x.increment).count = (afterSecond b x.line x.condition).count +
      (incrementIn (afterSecond b x.line x.condition) x.line (Stmt.conditionLength x.condition)
        x.increment).constants.length := Body.count_add _ _
  simp only [loopCode, Fragment.constants_append, Fragment.constants_single, List.length_append,
    List.length_nil, hexit]
  omega

/-- The parts of a `for` statement fit if and only if the whole does. -/
theorem fits_for {i : Initializer} {x : Loop} :
    (Stmt.forLoop i x.condition x.line x.increment x.body).Fits b ↔ i.Fits (inFor b) ∧
      (∀ e ∈ x.condition, e.Fits (afterFirst b i) (afterFirst b i).scope.height) ∧
      (∀ e ∈ x.increment, e.1.Fits (afterSecond (afterFirst b i) x.line x.condition)
        (afterFirst b i).scope.height) ∧
      x.body.Fits (afterThird (afterFirst b i) x.line x.condition x.increment) ∧
      Stmt.ForFits x.condition x.increment x.body.length := by
  have htotal := constants_loopCode (afterFirst b i) x
  have hfirst := count_afterFirst b i
  have hthird : (afterThird (afterFirst b i) x.line x.condition x.increment).count =
      (afterSecond (afterFirst b i) x.line x.condition).count +
        (incrementIn (afterSecond (afterFirst b i) x.line x.condition) x.line
          (Stmt.conditionLength x.condition) x.increment).constants.length :=
    Body.count_add _ _
  have hsecond := count_afterSecond (afterFirst b i) x.line openEnd x.condition
  have hroom :
      b.count + ((Stmt.forLoop i x.condition x.line x.increment x.body).code b.scope b.count).constants.length =
      (afterThird (afterFirst b i) x.line x.condition x.increment).count + (x.body.code (afterFirst b i).scope
        (afterThird (afterFirst b i) x.line x.condition x.increment).count).constants.length := by
    rw [code_for]
    simp only [Fragment.constants_append, Fragment.constants_pops, List.length_append, List.length_nil]
    omega
  constructor
  · rintro ⟨⟨hinit, hcond, hinc, hbody, hjumps⟩, hmax⟩
    rw [hroom] at hmax
    refine ⟨⟨hinit, ?_⟩, fun e he => ⟨hcond e he, ?_⟩, fun e he => ⟨hinc e he, ?_⟩, ⟨hbody, hmax⟩, hjumps⟩
    · show b.count + (i.code b.scope.inner b.count).constants.length ≤ Chunk.maxConstants
      omega
    · rw [he] at hsecond
      simp only [Stmt.conditionCode, Fragment.constants_append, Fragment.constants_single,
        List.append_nil] at hsecond
      rw [he] at hmax hthird
      omega
    · obtain ⟨e, close⟩ := e
      rw [he] at hmax hthird
      simp only [Stmt.incrementCode, Fragment.constants_append, Fragment.constants_single, List.append_nil,
        List.nil_append] at hthird
      exact Nat.le_trans (Nat.le_trans (Nat.le_of_eq hthird.symm) (Nat.le_add_right _ _)) hmax
  · rintro ⟨⟨hinit, -⟩, hcond, hinc, ⟨hbody, hmax⟩, hjumps⟩
    exact ⟨⟨hinit, fun e he => (hcond e he).1, fun e he => (hinc e he).1, hbody, hjumps⟩, hroom ▸ hmax⟩

theorem scope_after_inner (scope : Scope) (name : Option String) : scope.inner.after name =
    ⟨name.toList.map (fun n => ⟨n, some (scope.depth + 1)⟩) ++ scope.locals, scope.depth + 1⟩ := by
  cases name <;> simp [Scope.after, Scope.declare, Scope.inner]

theorem statement_for_iff {word : Token} {rest : List Token} {s : Stmt} (hword : word.kind = .forWord) :
    Grammar.Statement (word :: tokens) s rest ↔ ∃ left input i second third last condition l increment body,
      tokens = left :: input ∧ left.kind = .leftParen ∧ Grammar.First input i second ∧
      Grammar.Second second condition l third ∧ Grammar.Third third increment last ∧
      Grammar.Statement last body rest ∧ s = .forLoop i condition l increment body := by
  constructor
  · intro h
    cases h with
    | forLoop _ hopen hfirst hsecond hthird hs =>
      exact ⟨_, _, _, _, _, _, _, _, _, _, rfl, hopen, hfirst, hsecond, hthird, hs, rfl⟩
    | expression he =>
      have hstarts := he.starts_cons
      rw [hword] at hstarts
      cases hstarts
    | print h | bareReturn h | ret h | ifThen h | ifElse h | whileLoop h | block h => simp [hword] at h
  · rintro ⟨left, input, i, second, third, last, condition, l, increment, body, rfl, hopen, hfirst, hsecond,
      hthird, hs, rfl⟩
    exact .forLoop hword hopen hfirst hsecond hthird hs

theorem forStatement_eq : forStatement expr stmt c =
    (forLoop expr stmt (forInitializer expr (c.openScope.expect .leftParen .openFor))).closeScope := rfl

theorem nested_afterFirst {i : Initializer} (hnested : b.scope.Nested) (hfits : i.Fits (inFor b)) :
    (afterFirst b i).scope.Nested := by
  refine Scope.Nested.after hnested.inner fun name hname => ?_
  obtain ⟨hallowed, -⟩ := hfits
  cases i with
  | empty => cases hname
  | var v =>
    cases hname
    exact hallowed.1
  | expression => cases hname

theorem Failed.forLoop (hexpr : ParsesExpr expr n) (hstmt : ParsesStmt stmt n) (h : c.Failed) :
    (forLoop expr stmt c).Failed :=
  (hstmt.failed _ (failed_stable.forIncrement hexpr.failed (failed_stable.forCondition hexpr.failed h)
      _)).closeFor _ _

/-- Closing the scope of a `for` statement. -/
theorem At.closeFor_scope {i : Initializer} {x : Loop} (hnested : b.scope.Nested)
    (h : c.At ⟨x.rest, x.body.endLine,
      (afterFirst b i).add (loopCode (afterFirst b i) x.line x.condition x.increment
      x.body)⟩) : c.closeScope.At ⟨x.rest, x.body.endLine,
        b.add ((Stmt.forLoop i x.condition x.line x.increment x.body).code b.scope b.count)⟩ := by
  have hclosed := h.closeScope hnested (i.name?.toList.map fun name => ⟨name, some (b.scope.depth + 1)⟩)
    (by simp) (scope_after_inner b.scope i.name?)
  have hpops : (i.name?.toList.map fun name => (⟨name, some (b.scope.depth + 1)⟩ : Local)).length =
      (b.scope.inner.after i.name?).height - b.scope.height := by
    rw [Scope.height_after_sub, List.length_map]
    cases i.name? <;> rfl
  rw [hpops] at hclosed
  rw [code_for, ← Body.add_add, ← Body.add_add]
  exact hclosed

theorem At.forStatement {word : Token} (hexpr : ParsesExpr expr n) (hstmt : ParsesStmt stmt n)
    (h : c.At ⟨tokens, line, b⟩)
    (hnested : b.scope.Nested) (hn : tokens.length ≤ n) (hword : word.kind = .forWord) :
    Outcome (forStatement expr stmt c) (ReadsStmt (word :: tokens) b) := by
  rw [forStatement_eq]
  have hfirst : ∀ r : Point, Takes .leftParen ⟨tokens, line, inFor b⟩ r →
      (c.openScope.expect .leftParen .openFor).At r →
      Outcome (Compiler.forLoop expr stmt
        (Compiler.forInitializer expr (c.openScope.expect .leftParen .openFor))).closeScope
        fun q => ∃ x, ReadsFirst r.tokens (inFor b) x ∧ ∃ y, ReadsLoop x.2 (afterFirst b x.1) y ∧
          q = ⟨y.rest, y.body.endLine,
          b.add ((Stmt.forLoop x.1 y.condition y.line y.increment y.body).code b.scope b.count)⟩ := by
    rintro _ ⟨left, input, rfl, -, -, rfl⟩ hat
    rw [List.length_cons] at hn
    refine (hat.forInitializer hexpr hnested.inner (Nat.le_of_succ_le hn)).bindOver
      (fun hf => failed_stable.closeScope (hf.forLoop hexpr hstmt)) fun x hx hat' => ?_
    have hshorter : x.2.length < input.length := hx.1.consumes.shorter
    exact (hat'.forLoop hexpr hstmt (nested_afterFirst hnested hx.2.2) (by omega)).bindOver
      (fun hf => failed_stable.closeScope hf) fun y _ hat'' => (hat''.closeFor_scope hnested).outcome
  have hbind := (h.openScope.expect .leftParen (by decide) .openFor).bind (fun hf => failed_stable.closeScope
    ((failed_stable.forInitializer hexpr.failed hf).forLoop hexpr hstmt)) hfirst
  refine hbind.iff fun q => ?_
  constructor
  · rintro ⟨_, ⟨left, input, rfl, hopen, -, rfl⟩, ⟨i, second⟩, ⟨hfirst, -, hfits⟩,
      ⟨condition, l, increment, s, rest⟩,
      ⟨⟨third, last, hsecond, hthird, hs⟩, hreadable, hcondition, hincrement, hbody, hjumps⟩, rfl⟩
    refine ⟨(.forLoop i condition l increment s, rest),
      ⟨.forLoop hword hopen hfirst hsecond hthird hs, hreadable, ?_⟩, rfl⟩
    exact (fits_for (x := ⟨condition, l, increment, s, rest⟩)).mpr ⟨hfits, hcondition, hincrement,
      hbody, hjumps⟩
  · rintro ⟨⟨s, rest⟩, ⟨hread, hreadable, hfits⟩, rfl⟩
    obtain ⟨left, input, i, second, third, last, condition, l, increment, body, rfl, hopen, hfirst, hsecond,
      hthird, hs, rfl⟩ := (statement_for_iff hword).mp hread
    obtain ⟨hinit, hcondition, hincrement, hbody, hjumps⟩ :=
      (fits_for (x := ⟨condition, l, increment, body, rest⟩)).mp hfits
    exact ⟨_, ⟨left, input, rfl, hopen, hfirst.consumes.readable, rfl⟩, (i, second),
      ⟨hfirst, hsecond.consumes.readable, hinit⟩, ⟨condition, l, increment, body, rest⟩,
      ⟨⟨third, last, hsecond, hthird, hs⟩, hreadable, hcondition, hincrement, hbody, hjumps⟩, rfl⟩

end Compiler

end Lox
