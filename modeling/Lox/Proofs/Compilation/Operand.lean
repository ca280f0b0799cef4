import Lox.Proofs.Compilation.Naming
import Lox.Proofs.Precedence

/-! # Compiling operands

What it means that the compiler of expressions is right: from a point, it reaches the points after the
expressions that begin there and obey the rules, and fails if there is none. If this holds of the compiler of
subexpressions, then it holds of the compiler of operands. -/

namespace Lox

/-- An expression obeys the rules in a function, and there is room for its constants. -/
def Expr.Fits (b : Body) (height : Nat) (e : Expr) : Prop :=
  e.Allowed b.locals ∧ b.count + (e.code b.locals b.count height).constants.length ≤ Chunk.maxConstants

/-- The point after an expression. -/
def Point.after (rest : List Token) (b : Body) (height : Nat) (e : Expr) : Point :=
  ⟨rest, e.endLine, b.add (e.code b.locals b.count height)⟩

namespace Compiler

open Precedence (NoEqual Stops)

/-- The points after an expression that `R` reads in a function. -/
def Reads (R : Expr → List Token → Prop) (b : Body) (height : Nat) (q : Point) : Prop :=
  ∃ e rest, R e rest ∧ Readable rest ∧ e.Fits b height ∧ q = .after rest b height e

theorem Outcome.reads {c : Compiler} {R : Expr → List Token → Prop} {b : Body} {height : Nat}
    (h : Outcome c (Reads R b height)) : Outcome c fun q => ∃ x : Expr × List Token,
      (R x.1 x.2 ∧ Readable x.2 ∧ x.1.Fits b height) ∧ q = .after x.2 b height x.1 := by
  refine h.iff fun q => ⟨?_, ?_⟩
  · rintro ⟨e, rest, hread, hreadable, hfits, rfl⟩
    exact ⟨(e, rest), ⟨hread, hreadable, hfits⟩, rfl⟩
  · rintro ⟨x, ⟨hread, hreadable, hfits⟩, rfl⟩
    exact ⟨x.1, x.2, hread, hreadable, hfits, rfl⟩

/-- The compiler of expressions is right where at most `n` tokens are left, and keeps failures. -/
structure Parses (parse : Level → Compiler → Compiler) (n : Nat) : Prop where
  reads : ∀ (level : Level) {c : Compiler} {p : Point} (height : Nat), level ≠ .none → c.At p →
    p.tokens.length ≤ n → Outcome (parse level c) (Reads (Precedence.Expression level p.tokens) p.body height)
  failed : ∀ level c, c.Failed → (parse level c).Failed

variable {parse : Level → Compiler → Compiler} {n : Nat} {c : Compiler} {p : Point} {token : Token}

/-! ### Operands -/

/-- The token at hand is `=`. -/
theorem At.sees_equal (h : c.At p) : c.sees .equal = true ↔ ¬NoEqual p.tokens := by
  obtain ⟨token, rest, htokens, -, -⟩ := h.exists_tokens
  rw [h.sees htokens, htokens]
  simp [NoEqual]

theorem operand_literal_iff {assignable : Bool} {input rest : List Token} {value : Literal} {e : Expr}
    (htoken : Literal.ofToken? token = some value) :
    Precedence.Operand assignable token input e rest ↔ e = .literal value token.line ∧ rest = input := by
  constructor
  · intro h
    cases h with
    | literal h =>
      cases htoken.symm.trans h
      exact ⟨rfl, rfl⟩
    | mention hname => simp [Literal.ofToken?, hname] at htoken
    | assign hname => simp [Literal.ofToken?, hname] at htoken
    | group hopen => simp [Literal.ofToken?, hopen] at htoken
    | unary hword =>
      unfold Literal.ofToken? at htoken
      split at htoken <;> simp_all [UnaryOp.ofKind?]
  · rintro ⟨rfl, rfl⟩
    exact .literal htoken

/-- The compiler writes the code of a literal. -/
theorem At.literal {value : Literal} (h : c.At p) (hprevious : c.previous = token)
    (htoken : Literal.ofToken? token = some value) (assignable : Bool) (height : Nat) :
    Outcome (operand parse assignable c) fun q =>
      p.body.count + (value.code token.line p.body.count height).constants.length ≤ Chunk.maxConstants ∧
      q = p.add (value.code token.line p.body.count height) := by
  have hline : p.line = token.line := hprevious ▸ h.line.symm
  have hplain : ∀ instruction, (c.emit instruction).Outcome fun q => p.body.count + 0 ≤ Chunk.maxConstants ∧
      q = p.add (.single token.line height instruction) := by
    intro instruction
    rw [← hline]
    exact outcome_guard (fun _ => h.emit instruction height) fun hnot => absurd h.room hnot
  have hpool : ∀ constant, (c.emitConstant constant).Outcome fun q => p.body.count + 1 ≤ Chunk.maxConstants ∧
      q = p.add (.pool constant ++ .single token.line height (.constant (operandByte p.body.count))) := by
    intro constant
    rw [← hline]
    exact h.emitConstant constant height
  unfold Literal.ofToken? at htoken
  unfold Compiler.operand
  rw [hprevious]
  split at htoken <;> rename_i hkind <;> cases htoken <;> rw [hkind]
  · exact hplain _
  · exact hplain _
  · exact hplain _
  · exact hpool _
  · exact hpool _

/-- The compiler of an operand, which begins with the last accepted token, is right. -/
def ReadsOperand (parse : Level → Compiler → Compiler) (assignable : Bool) (c : Compiler) (p : Point)
    (height : Nat) :
    Prop :=
  Outcome (operand parse assignable c) (Reads (Precedence.Operand assignable c.previous p.tokens) p.body height)

theorem At.readsOperand_literal {value : Literal} (h : c.At p)
    (htoken : Literal.ofToken? c.previous = some value)
    (assignable : Bool) (height : Nat) : ReadsOperand parse assignable c p height := by
  have hreadable : Readable p.tokens := by
    rw [← h.tokens]
    exact readable_cons rfl h.readable
  refine (h.literal rfl htoken assignable height).iff fun q => ?_
  constructor
  · rintro ⟨hroom, rfl⟩
    exact ⟨.literal value c.previous.line, p.tokens, .literal htoken, hreadable,
      ⟨trivial, hroom⟩, by rw [h.line]; rfl⟩
  · rintro ⟨e, rest, hread, -, ⟨-, hroom⟩, rfl⟩
    obtain ⟨rfl, rfl⟩ := (operand_literal_iff htoken).mp hread
    exact ⟨hroom, by rw [Point.after, Expr.endLine, h.line]; rfl⟩

theorem operand_unary_iff {assignable : Bool} {input rest : List Token} {op : UnaryOp} {e : Expr}
    (hword : UnaryOp.ofKind? token.kind = some op) :
    Precedence.Operand assignable token input e rest ↔
      ∃ inner, e = .unary op inner ∧ Precedence.Expression .unary input inner rest := by
  constructor
  · intro h
    cases h with
    | literal h =>
      unfold Literal.ofToken? at h
      split at h <;> simp_all [UnaryOp.ofKind?]
    | mention hname => simp [UnaryOp.ofKind?, hname] at hword
    | assign hname => simp [UnaryOp.ofKind?, hname] at hword
    | group hopen => simp [UnaryOp.ofKind?, hopen] at hword
    | unary h hoperand =>
      cases hword.symm.trans h
      exact ⟨_, rfl, hoperand⟩
  · rintro ⟨inner, rfl, h⟩
    exact .unary hword h

theorem At.readsOperand_unary {op : UnaryOp} (hparse : Parses parse n) (h : c.At p)
    (hword : UnaryOp.ofKind? c.previous.kind = some op) (assignable : Bool) (height : Nat)
    (hn : p.tokens.length ≤ n) :
    ReadsOperand parse assignable c p height := by
  have hunfold : operand parse assignable c = (parse .unary c).emit op.instruction := by
    unfold UnaryOp.ofKind? at hword
    unfold Compiler.operand
    split at hword <;> rename_i hkind <;> cases hword <;> rw [hkind] <;> rfl
  unfold ReadsOperand
  rw [hunfold]
  have hbind := (hparse.reads .unary height (by decide) h hn).bind
    (fun hf => failed_stable.emit hf op.instruction)
    fun r _ hat => (hat.emit op.instruction (height + 1)).outcome
  refine hbind.iff fun q => ?_
  constructor
  · rintro ⟨_, ⟨e, rest, hread, hreadable, ⟨hallowed, hroom⟩, rfl⟩, rfl⟩
    refine ⟨.unary op e, rest, .unary hword hread, hreadable, ⟨hallowed, ?_⟩, ?_⟩
    · simpa [Expr.code] using hroom
    · simp [Point.after, Point.add, Body.add_add, Expr.code, Expr.endLine]
  · rintro ⟨e, rest, hread, hreadable, ⟨hallowed, hroom⟩, rfl⟩
    obtain ⟨inner, rfl, hinner⟩ := (operand_unary_iff hword).mp hread
    refine ⟨_, ⟨inner, rest, hinner, hreadable, ⟨hallowed, ?_⟩, rfl⟩, ?_⟩
    · simpa [Expr.code] using hroom
    · simp [Point.after, Point.add, Body.add_add, Expr.code, Expr.endLine]

theorem operand_group_iff {assignable : Bool} {input rest : List Token} {e : Expr}
    (hopen : token.kind = .leftParen) :
    Precedence.Operand assignable token input e rest ↔ ∃ inner right, e = .group inner right.line ∧
      Precedence.Expression .assignment input inner (right :: rest) ∧ right.kind = .rightParen := by
  constructor
  · intro h
    cases h with
    | literal h => simp [Literal.ofToken?, hopen] at h
    | mention hname => simp [hopen] at hname
    | assign hname => simp [hopen] at hname
    | group _ hinner hclose => exact ⟨_, _, rfl, hinner, hclose⟩
    | unary h => simp [UnaryOp.ofKind?, hopen] at h
  · rintro ⟨inner, right, rfl, hinner, hclose⟩
    exact .group hopen hinner hclose

theorem At.readsOperand_group (hparse : Parses parse n) (h : c.At p) (hopen : c.previous.kind = .leftParen)
    (assignable : Bool) (height : Nat) (hn : p.tokens.length ≤ n) :
    ReadsOperand parse assignable c p height := by
  have hunfold : operand parse assignable c = (parse .assignment c).expect .rightParen .closeGroup := by
    unfold Compiler.operand
    rw [hopen]
  unfold ReadsOperand
  rw [hunfold]
  have hbind := (hparse.reads .assignment height (by decide) h hn).bind
    (fun hf => failed_stable.expect hf .rightParen .closeGroup) fun r _ hat =>
      hat.expect .rightParen (by decide) _
  refine hbind.iff fun q => ?_
  constructor
  · rintro ⟨_, ⟨e, rest, hread, -, hfits, rfl⟩, ⟨right, rest', htokens, hclose, hreadable, rfl⟩⟩
    cases htokens
    exact ⟨.group e right.line, rest', .group hopen hread hclose, hreadable, hfits, rfl⟩
  · rintro ⟨e, rest, hread, hreadable, hfits, rfl⟩
    obtain ⟨inner, right, rfl, hinner, hclose⟩ := (operand_group_iff hopen).mp hread
    exact ⟨_, ⟨inner, _, hinner, readable_cons hclose (by decide), hfits, rfl⟩,
      ⟨right, rest, rfl, hclose, hreadable, rfl⟩⟩

/-! ### Variables -/

theorem operand_identifier_iff {assignable : Bool} {input rest : List Token} {e : Expr}
    (hname : token.kind = .identifier) :
    Precedence.Operand assignable token input e rest ↔
      ((assignable = true → NoEqual input) ∧ e = .mention token.lexeme token.line ∧ rest = input) ∨
      assignable = true ∧ ∃ equal middle value, input = equal :: middle ∧ equal.kind = .equal ∧
        Precedence.Expression .assignment middle value rest ∧ e = .assign token.lexeme value := by
  constructor
  · intro h
    cases h with
    | literal h => simp [Literal.ofToken?, hname] at h
    | mention _ hnext => exact Or.inl ⟨hnext, rfl, rfl⟩
    | assign _ hequal hvalue => exact Or.inr ⟨rfl, _, _, _, rfl, hequal, hvalue, rfl⟩
    | group hopen => simp [hname] at hopen
    | unary h => simp [UnaryOp.ofKind?, hname] at h
  · rintro (⟨hnext, rfl, rfl⟩ | ⟨rfl, equal, middle, value, rfl, hequal, hvalue, rfl⟩)
    · exact .mention hname hnext
    · exact .assign hname hequal hvalue

theorem readable_of_operand {assignable : Bool} {input rest : List Token} {e : Expr}
    (h : Precedence.Operand assignable token input e rest) : token.kind ≠ .error := by
  intro herror
  cases h with
  | literal htoken => simp [Literal.ofToken?, herror] at htoken
  | mention hname => simp [herror] at hname
  | assign hname => simp [herror] at hname
  | group hopen => simp [herror] at hopen
  | unary hword => simp [UnaryOp.ofKind?, herror] at hword

theorem readable_of_expression {level : Level} {input rest : List Token} {e : Expr}
    (h : Precedence.Expression level input e rest) : Readable input := by
  cases h with
  | mk hfirst => exact readable_cons rfl (readable_of_operand hfirst)

/-- The end of a mention or an assignment, once it is known how the variable is read and written. -/
def access (parse : Level → Compiler → Compiler) (assignable : Bool) (read write : Instruction) (c : Compiler) :
    Compiler :=
  if assignable && c.sees .equal then (parse .assignment c.accept).emit write else c.emit read

theorem Failed.access (hparse : Parses parse n) (h : c.Failed) (assignable : Bool) (read write : Instruction) :
    (access parse assignable read write c).Failed := by
  unfold Compiler.access
  split
  · exact failed_stable.emit (hparse.failed _ _ (failed_stable.accept _ h)) _
  · exact failed_stable.emit h _

theorem At.access (hparse : Parses parse n) (h : c.At p) (hn : p.tokens.length ≤ n) (assignable : Bool)
    (read write : Instruction) (height : Nat) :
    Outcome (access parse assignable read write c) fun q =>
      ((assignable = true → NoEqual p.tokens) ∧ q = p.add (.single p.line height read)) ∨
      assignable = true ∧ ∃ equal middle, p.tokens = equal :: middle ∧ equal.kind = .equal ∧
        ∃ r, Reads (Precedence.Expression .assignment middle) p.body height r ∧
          q = r.add (.single r.line (height + 1) write) := by
  unfold Compiler.access
  by_cases hassign : (assignable && c.sees .equal) = true
  · rw [if_pos hassign]
    obtain ⟨rfl, hsees⟩ : assignable = true ∧ c.sees .equal = true := by simpa using hassign
    have hequals : ¬NoEqual p.tokens := h.sees_equal.mp hsees
    obtain ⟨equal, middle, htokens, -, -⟩ := h.exists_tokens
    have hkind : equal.kind = .equal := (h.sees htokens _).mp hsees
    have hlength : middle.length ≤ n := by
      rw [htokens] at hn
      exact Nat.le_of_succ_le hn
    have hvalue : Outcome (parse .assignment c.accept) fun r => ∃ s : Point, (Readable middle ∧
        s = ⟨middle, equal.line, p.body⟩) ∧
        Reads (Precedence.Expression .assignment middle) p.body height r := by
      refine (h.accept htokens (hkind ▸ by decide)).bind (hparse.failed _ _) ?_
      rintro s ⟨-, rfl⟩ hat
      exact hparse.reads .assignment height (by decide) hat hlength
    have hbind := hvalue.bind (fun hf => failed_stable.emit hf write) fun r _ hat =>
      (hat.emit write (height + 1)).outcome
    refine hbind.iff fun q => ?_
    constructor
    · rintro ⟨r, ⟨_, -, hread⟩, rfl⟩
      exact Or.inr ⟨rfl, equal, middle, htokens, hkind, r, hread, rfl⟩
    · rintro (⟨hnext, -⟩ | ⟨-, equal', middle', htokens', -, r, hread, rfl⟩)
      · exact absurd (hnext rfl) hequals
      · cases htokens.symm.trans htokens'
        obtain ⟨e, rest, hexpr, hrest⟩ := hread
        exact ⟨r, ⟨_, ⟨readable_of_expression hexpr, rfl⟩, ⟨e, rest, hexpr, hrest⟩⟩, rfl⟩
  · rw [if_neg hassign]
    have hnext : assignable = true → NoEqual p.tokens := by
      intro hassignable
      apply Classical.byContradiction
      intro hnot
      exact hassign (by simp [hassignable, h.sees_equal.mpr hnot])
    refine (h.emit read height).outcome.iff fun q => ?_
    constructor
    · intro hq
      exact Or.inl ⟨hnext, hq⟩
    · rintro (⟨-, hq⟩ | ⟨hassignable, equal, middle, htokens, hkind, -⟩)
      · exact hq
      · refine absurd (hnext hassignable) fun hno => hno equal ?_ hkind
        rw [htokens]
        rfl

theorem operand_identifier (hname : c.previous.kind = .identifier) (assignable : Bool) :
    operand parse assignable c = mention parse assignable c := by
  unfold Compiler.operand
  rw [hname]

theorem mention_local {slot : UInt8} {assignable : Bool} (hslot : (c.resolve c.previous).1 = some slot) :
    mention parse assignable c = access parse assignable (.getLocal slot) (.setLocal slot)
      (c.resolve c.previous).2 := by
  unfold Compiler.mention
  dsimp only
  generalize c.resolve c.previous = found at hslot ⊢
  obtain ⟨_, d⟩ := found
  cases hslot
  rfl

theorem mention_global {assignable : Bool} (hslot : (c.resolve c.previous).1 = none) :
    mention parse assignable c = access parse assignable
      (.getGlobal ((c.resolve c.previous).2.nameConstant c.previous).1)
      (.setGlobal ((c.resolve c.previous).2.nameConstant c.previous).1)
      ((c.resolve c.previous).2.nameConstant c.previous).2 := by
  unfold Compiler.mention
  dsimp only
  generalize c.resolve c.previous = found at hslot ⊢
  obtain ⟨_, d⟩ := found
  cases hslot
  rfl

theorem At.readableTokens (h : c.At p) : Readable p.tokens := by
  rw [← h.tokens]
  exact readable_cons rfl h.readable

theorem At.readsOperand_local {slot : Nat} {loc : Local} (hparse : Parses parse n) (h : c.At p)
    (hname : c.previous.kind = .identifier)
    (hfound : Local.resolve? c.previous.lexeme p.body.locals = some (slot, loc))
    (assignable : Bool) (height : Nat) (hn : p.tokens.length ≤ n) :
    ReadsOperand parse assignable c p height := by
  obtain ⟨hslot, hresolved⟩ := h.resolve c.previous
  rw [hfound, Option.map_some] at hslot
  unfold ReadsOperand
  rw [operand_identifier hname, mention_local hslot]
  have hbind := hresolved.bind (fun hf => hf.access hparse assignable (.getLocal (operandByte slot))
    (.setLocal (operandByte slot))) fun r hr hat => hat.access hparse (hr.2 ▸ hn) assignable _ _ height
  refine hbind.iff fun q => ?_
  constructor
  · rintro ⟨r, ⟨husable, hr⟩, hcases⟩
    subst hr
    rcases hcases with ⟨hnext, rfl⟩ | ⟨rfl, equal, middle, htokens, hequal, _, ⟨value, rest, hvalue, hread,
      ⟨hallowed, hroom⟩, rfl⟩, rfl⟩
    · refine ⟨_, r.tokens, .mention hname hnext, h.readableTokens, ⟨husable, ?_⟩, ?_⟩
      · simpa [Expr.code, hfound] using h.room
      · simp [Point.after, Point.add, Expr.code, hfound, Expr.endLine, h.line]
    · refine ⟨_, rest, (operand_identifier_iff hname).mpr
          (Or.inr ⟨rfl, equal, middle, value, htokens, hequal, hvalue, rfl⟩),
        hread, ⟨⟨husable, hallowed⟩, ?_⟩, ?_⟩
      · simpa [Expr.code, hfound] using hroom
      · simp [Point.after, Point.add, Body.add_add, Expr.code, hfound, Expr.endLine]
  · rintro ⟨e, rest, hoperand, hread, ⟨hallowed, hroom⟩, rfl⟩
    rcases (operand_identifier_iff hname).mp hoperand with
      ⟨hnext, rfl, rfl⟩ | ⟨rfl, equal, middle, value, htokens, hequal, hvalue, rfl⟩
    · refine ⟨p, ⟨hallowed, rfl⟩, Or.inl ⟨hnext, ?_⟩⟩
      simp [Point.after, Point.add, Expr.code, hfound, Expr.endLine, h.line]
    · refine ⟨p, ⟨hallowed.1, rfl⟩, Or.inr ⟨rfl, equal, middle, htokens, hequal, _,
        ⟨value, rest, hvalue, hread, ⟨hallowed.2, ?_⟩, rfl⟩, ?_⟩⟩
      · simpa [Expr.code, hfound] using hroom
      · simp [Point.after, Point.add, Body.add_add, Expr.code, hfound, Expr.endLine]

theorem At.readsOperand_global (hparse : Parses parse n) (h : c.At p) (hname : c.previous.kind = .identifier)
    (hfound : Local.resolve? c.previous.lexeme p.body.locals = none) (assignable : Bool) (height : Nat)
    (hn : p.tokens.length ≤ n) : ReadsOperand parse assignable c p height := by
  obtain ⟨hslot, hresolved⟩ := h.resolve c.previous
  rw [hfound, Option.map_none] at hslot
  have husable : Local.Usable p.body.locals c.previous.lexeme := by
    intro slot loc heq
    simp [hfound] at heq
  have hat : (c.resolve c.previous).2.At p := hresolved.1 p ⟨husable, rfl⟩
  unfold ReadsOperand
  rw [operand_identifier hname, mention_global hslot]
  by_cases hroom : p.body.count < Chunk.maxConstants
  · obtain ⟨hindex, hnamed⟩ := hat.addConstant (.string c.previous.lexeme) hroom
    have haccess := hnamed.access hparse hn assignable (.getGlobal (operandByte p.body.count))
      (.setGlobal (operandByte p.body.count)) height
    rw [nameConstant, hindex]
    refine haccess.iff fun q => ?_
    constructor
    · rintro (⟨hnext, rfl⟩ | ⟨rfl, equal, middle, htokens, hequal, _,
        ⟨value, rest, hvalue, hread, ⟨hallowed, hcount⟩, rfl⟩, rfl⟩)
      · refine ⟨_, p.tokens, .mention hname hnext, h.readableTokens, ⟨husable, ?_⟩, ?_⟩
        · simp [Expr.code, hfound]
          exact hroom
        · simp [Point.after, Point.add, Body.add_add, Expr.code, hfound, Expr.endLine, h.line]
      · refine ⟨_, rest, (operand_identifier_iff hname).mpr
            (Or.inr ⟨rfl, equal, middle, value, htokens, hequal, hvalue, rfl⟩),
          hread, ⟨⟨husable, hallowed⟩, ?_⟩, ?_⟩
        · simp [Expr.code, hfound] at hcount ⊢
          omega
        · simp [Point.after, Point.add, Body.add_add, Expr.code, hfound, Expr.endLine, Fragment.append_assoc]
    · rintro ⟨e, rest, hoperand, hread, ⟨hallowed, hcount⟩, rfl⟩
      rcases (operand_identifier_iff hname).mp hoperand with
        ⟨hnext, rfl, rfl⟩ | ⟨rfl, equal, middle, value, htokens, hequal, hvalue, rfl⟩
      · refine Or.inl ⟨hnext, ?_⟩
        simp [Point.after, Point.add, Body.add_add, Expr.code, hfound, Expr.endLine, h.line]
      · refine Or.inr ⟨rfl, equal, middle, htokens, hequal, _,
          ⟨value, rest, hvalue, hread, ⟨hallowed.2, ?_⟩, rfl⟩, ?_⟩
        · simp [Expr.code, hfound] at hcount ⊢
          omega
        · simp [Point.after, Point.add, Body.add_add, Expr.code, hfound, Expr.endLine, Fragment.append_assoc]
  · have hfailed := (hat.addConstant_failed (.string c.previous.lexeme) hroom).access hparse assignable
      (.getGlobal ((c.resolve c.previous).2.nameConstant c.previous).1)
      (.setGlobal ((c.resolve c.previous).2.nameConstant c.previous).1)
    refine hfailed.outcome ?_
    rintro q ⟨e, rest, hoperand, -, ⟨-, hcount⟩, -⟩
    rcases (operand_identifier_iff hname).mp hoperand with ⟨-, rfl, -⟩ | ⟨-, equal, middle, value, -, -, -, rfl⟩
    · simp [Expr.code, hfound] at hcount
      omega
    · simp [Expr.code, hfound] at hcount
      omega

/-- An operand of any kind. -/
theorem At.operand (hparse : Parses parse n) (h : c.At p) (hstarts : startsExpression c.previous.kind = true)
    (assignable : Bool) (height : Nat) (hn : p.tokens.length ≤ n) :
    ReadsOperand parse assignable c p height := by
  cases hkind : c.previous.kind with
  | leftParen => exact h.readsOperand_group hparse hkind assignable height hn
  | minus =>
    have hword : UnaryOp.ofKind? c.previous.kind = some .negate := by rw [hkind]; rfl
    exact h.readsOperand_unary hparse hword assignable height hn
  | bang =>
    have hword : UnaryOp.ofKind? c.previous.kind = some .logicalNot := by rw [hkind]; rfl
    exact h.readsOperand_unary hparse hword assignable height hn
  | identifier =>
    cases hfound : Local.resolve? c.previous.lexeme p.body.locals with
    | none => exact h.readsOperand_global hparse hkind hfound assignable height hn
    | some found => exact h.readsOperand_local hparse hkind hfound assignable height hn
  | string | number | falseWord | trueWord | nilWord =>
    exact h.readsOperand_literal (by rw [Literal.ofToken?, hkind]) assignable height
  | _ =>
    rw [hkind] at hstarts
    cases hstarts

end Compiler

end Lox
