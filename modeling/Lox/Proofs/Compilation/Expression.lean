import Lox.Proofs.Compilation.Operand

/-! # Compiling expressions

The compiler of expressions reads by precedence and writes the code of the tree that it reads. The fuel is at
least the number of tokens that are left, and every nesting and every operator takes one of them. -/

namespace Lox.Compiler

open Precedence (Applies NoEqual Stops)

variable {parse : Level → Compiler → Compiler} {n : Nat} {c : Compiler} {p : Point} {b : Body} {height : Nat}
  {word : Token}

/-! ### Room for parts -/

/-- What stands on the left of an operator fits if the whole does. -/
theorem fits_of_applies {input rest : List Token} {left e : Expr} (h : Applies left word input e rest)
    (hfits : e.Fits b height) : left.Fits b height := by
  obtain ⟨hallowed, hroom⟩ := hfits
  cases h <;> simp only [Expr.Allowed, Expr.code, Fragment.constants_append, Fragment.constants_single,
    List.length_append]
    at hallowed hroom <;> exact ⟨hallowed.1, by omega⟩

theorem fits_of_operators {level : Level} {left e : Expr} {tokens rest : List Token} :
    Precedence.Operators level left tokens e rest → e.Fits b height → left.Fits b height
  | .stop _, hfits => hfits
  | .or hword _ hright hrest, hfits => fits_of_applies (.or hword hright) (fits_of_operators hrest hfits)
  | .and hword _ hright hrest, hfits => fits_of_applies (.and hword hright) (fits_of_operators hrest hfits)
  | .binary hword _ hright hrest, hfits =>
    fits_of_applies (.binary hword hright) (fits_of_operators hrest hfits)
  | .bareCall hword _ hclose hrest, hfits =>
    fits_of_applies (@Applies.bareCall _ _ _ [] hword hclose) (fits_of_operators hrest hfits)
  | .call hword _ harguments hclose hrest, hfits =>
    fits_of_applies (.call hword harguments hclose) (fits_of_operators hrest hfits)

/-! ### Binary operators -/

/-- The compiler of an operator, which is the last accepted token, is right after the code of its left side. -/
def ReadsOperator (parse : Level → Compiler → Compiler) (fuel : Nat) (c : Compiler) (tokens : List Token)
    (b : Body) (height : Nat) (left : Expr) : Prop :=
  Outcome (operator parse fuel c) (Reads (Applies left c.previous tokens) b height)

theorem applies_binary_iff {op : BinaryOp} {left e : Expr} {input rest : List Token}
    (hword : BinaryOp.ofKind? word.kind = some op) : Applies left word input e rest ↔
      ∃ right, e = .binary op left right ∧ Precedence.Expression op.level.next input right rest := by
  constructor
  · intro h
    cases h with
    | or h | and h | bareCall h | call h => simp [BinaryOp.ofKind?, h] at hword
    | binary h hright =>
      cases hword.symm.trans h
      exact ⟨_, rfl, hright⟩
  · rintro ⟨right, rfl, hright⟩
    exact .binary hword hright

@[simp] theorem constants_operator (op : BinaryOp) (line : UInt32) (height : Nat) :
    (op.code line height).constants = [] := by
  cases op <;> rfl

theorem operatorCode_eq {op : BinaryOp} {kind : Token.Kind} (hkind : BinaryOp.ofKind? kind = some op) :
    operatorCode kind = op.instruction :: if op.negated then [.logicalNot] else [] := by
  cases kind <;> simp only [BinaryOp.ofKind?, Option.some.injEq, reduceCtorEq] at hkind <;> subst hkind <;> rfl

theorem At.emitOperator {op : BinaryOp} {kind : Token.Kind} (h : c.At p)
    (hkind : BinaryOp.ofKind? kind = some op)
    (height : Nat) : ((operatorCode kind).foldl Compiler.emit c).At (p.add (op.code p.line height)) := by
  have hfirst := h.emit op.instruction (height + 2)
  rw [operatorCode_eq hkind, List.foldl_cons, BinaryOp.code]
  cases op.negated with
  | false => exact hfirst
  | true =>
    have hsecond := hfirst.emit .logicalNot (height + 1)
    rw [Point.add, Point.body_add, Body.add_add] at hsecond
    exact hsecond

theorem operator_binary {op : BinaryOp} (hword : BinaryOp.ofKind? c.previous.kind = some op) (fuel : Nat) :
    operator parse fuel c = (operatorCode c.previous.kind).foldl Compiler.emit (parse op.level.next c) := by
  rw [← BinaryOp.ofKind_of_ofKind? hword]
  unfold Compiler.operator
  split
  · rename_i h
    simp [h, BinaryOp.ofKind?] at hword
  · rename_i h
    simp [h, BinaryOp.ofKind?] at hword
  · rename_i h
    simp [h, BinaryOp.ofKind?] at hword
  · rfl

theorem At.readsOperator_binary {op : BinaryOp} {left : Expr} {tokens : List Token} {line : UInt32}
    (hparse : Parses parse n) (h : c.At ⟨tokens, line, b.add (left.code b.locals b.count height)⟩)
    (hleft : left.Fits b height) (hword : BinaryOp.ofKind? c.previous.kind = some op) (fuel : Nat)
    (hn : tokens.length ≤ n) : ReadsOperator parse fuel c tokens b height left := by
  unfold ReadsOperator
  rw [operator_binary hword]
  have hbind := (hparse.reads op.level.next (height + 1) op.level.next_ne_none h hn).bind
    (fun hf => failed_stable.emitAll hf (operatorCode c.previous.kind)) fun r _ hat =>
      (hat.emitOperator hword height).outcome
  refine hbind.iff fun q => ?_
  constructor
  · rintro ⟨_, ⟨right, rest, hright, hreadable, ⟨hallowed, hroom⟩, rfl⟩, rfl⟩
    refine ⟨.binary op left right, rest, .binary hword hright, hreadable, ⟨⟨hleft.1, hallowed⟩, ?_⟩, ?_⟩
    · simp [Expr.code] at hroom ⊢
      omega
    · simp [Point.after, Point.add, Body.add_add, Expr.code, Expr.endLine, Fragment.append_assoc]
  · rintro ⟨e, rest, happlies, hreadable, ⟨hallowed, hroom⟩, rfl⟩
    obtain ⟨right, rfl, hright⟩ := (applies_binary_iff hword).mp happlies
    refine ⟨_, ⟨right, rest, hright, hreadable, ⟨hallowed.2, ?_⟩, rfl⟩, ?_⟩
    · simp [Expr.code] at hroom ⊢
      omega
    · simp [Point.after, Point.add, Body.add_add, Expr.code, Expr.endLine, Fragment.append_assoc]

/-! ### Short circuits -/

theorem applies_and_iff {left e : Expr} {input rest : List Token} (hword : word.kind = .andWord) :
    Applies left word input e rest ↔
      ∃ right, e = .and left word.line right ∧ Precedence.Expression .and input right rest := by
  constructor
  · intro h
    cases h with
    | or h | bareCall h | call h => simp [hword] at h
    | and _ hright => exact ⟨_, rfl, hright⟩
    | binary h => simp [BinaryOp.ofKind?, hword] at h
  · rintro ⟨right, rfl, hright⟩
    exact .and hword hright

theorem applies_or_iff {left e : Expr} {input rest : List Token} (hword : word.kind = .orWord) :
    Applies left word input e rest ↔
      ∃ right, e = .or left word.line right ∧ Precedence.Expression .or input right rest := by
  constructor
  · intro h
    cases h with
    | and h | bareCall h | call h => simp [hword] at h
    | or _ hright => exact ⟨_, rfl, hright⟩
    | binary h => simp [BinaryOp.ofKind?, hword] at h
  · rintro ⟨right, rfl, hright⟩
    exact .or hword hright

/-- The right side of `and` and `or`: after a jump is open, a pop, an expression, and the end of the jump. -/
theorem At.readsRight (level : Level) {B : Body} {op : UInt8} {jump : UInt16 → Instruction}
    {tokens : List Token} {line : UInt32} {place : Nat} (hparse : Parses parse n) (hlevel : level ≠ .none)
    (h : c.At ⟨tokens, line, B.add (.single line (height + 1) (jump 0xffff))⟩)
    (hjump : ∀ w, (jump w).bytes = [op, highByte w, lowByte w]) (hplace : place = B.size + 1)
    (hn : tokens.length ≤ n) :
    Outcome ((parse level (c.emit .pop)).closeJump place) fun q => ∃ x : Expr × List Token,
      (Precedence.Expression level tokens x.1 x.2 ∧ Readable x.2 ∧ x.1.Fits B height) ∧
      1 + x.1.length ≤ maxJump ∧
      q = ⟨x.2, x.1.endLine, B.add (.single line (height + 1) (jump (operandWord (1 + x.1.length))) ++
        .single line (height + 1) .pop ++ x.1.code B.locals B.count height)⟩ := by
  have hpop := h.emit .pop (height + 1)
  have hbind := (hparse.reads level height hlevel hpop hn).reads.bindOver
    (fun hf => failed_stable.closeJump hf place)
    fun x _ hat => hat.closeJump hjump B hplace line (height + 1) (.single line (height + 1) .pop ++
      x.1.code B.locals B.count height) (by simp [Point.after, Body.add_add, Fragment.append_assoc])
  refine hbind.iff fun q => ?_
  refine exists_congr fun x => ?_
  simp [Expr.Fits, Point.after, Fragment.append_assoc, Expr.size_code, Instruction.size, Instruction.opcode,
    Opcode.width]

theorem At.readsOperator_and {left : Expr} {tokens : List Token}
    (hparse : Parses parse n) (h : c.At ⟨tokens, c.previous.line, b.add (left.code b.locals b.count height)⟩)
    (hleft : left.Fits b height) (hword : c.previous.kind = .andWord) (fuel : Nat)
    (hn : tokens.length ≤ n) : ReadsOperator parse fuel c tokens b height left := by
  have hopen := h.openJump .jumpIfFalse (height + 1)
  have hplace := h.openJump_place .jumpIfFalse rfl
  have hright := hopen.readsRight .and hparse (by decide) bytes_jumpIfFalse hplace hn
  have hunfold : operator parse fuel c = (parse .and ((c.openJump .jumpIfFalse).2.emit .pop)).closeJump
      (c.openJump .jumpIfFalse).1 := by
    unfold Compiler.operator
    rw [hword]
    rfl
  unfold ReadsOperator
  rw [hunfold]
  refine hright.iff fun q => ?_
  constructor
  · rintro ⟨⟨e, rest⟩, ⟨hexpr, hreadable, hallowed, hroom⟩, hlength, rfl⟩
    refine ⟨.and left c.previous.line e, rest, .and hword hexpr, hreadable,
      ⟨⟨hleft.1, hallowed, hlength⟩, ?_⟩, ?_⟩
    · simp [Expr.code] at hroom ⊢
      omega
    · simp [Point.after, Body.add_add, Expr.code, Expr.endLine, Fragment.append_assoc]
  · rintro ⟨e, rest, happlies, hreadable, ⟨hallowed, hroom⟩, rfl⟩
    obtain ⟨right, rfl, hexpr⟩ := (applies_and_iff hword).mp happlies
    refine ⟨(right, rest), ⟨hexpr, hreadable, hallowed.2.1, ?_⟩, hallowed.2.2, ?_⟩
    · simp [Expr.code] at hroom ⊢
      omega
    · simp [Point.after, Body.add_add, Expr.code, Expr.endLine, Fragment.append_assoc]

theorem At.readsOperator_or {left : Expr} {tokens : List Token}
    (hparse : Parses parse n) (h : c.At ⟨tokens, c.previous.line, b.add (left.code b.locals b.count height)⟩)
    (hleft : left.Fits b height) (hword : c.previous.kind = .orWord) (fuel : Nat)
    (hn : tokens.length ≤ n) : ReadsOperator parse fuel c tokens b height left := by
  have hskip := h.openJump .jumpIfFalse (height + 1)
  have hplace := h.openJump_place .jumpIfFalse rfl
  have hopen := hskip.openJump .jump (height + 1)
  have hplace' := hskip.openJump_place .jump rfl
  -- The jump over the jump to the end always is in range.
  have hclosed :=
    (hopen.closeJump bytes_jumpIfFalse (b.add (left.code b.locals b.count height)) hplace c.previous.line
    (height + 1) (.single c.previous.line (height + 1) (.jump 0xffff))
      (by simp [Body.add_add, Fragment.append_assoc])).1 _
    ⟨by rw [Fragment.size_single]; decide, rfl⟩
  rw [← Body.add_add] at hclosed
  have hsame : ((c.openJump .jumpIfFalse).2.openJump .jump).1 = ((b.add (left.code b.locals b.count height)).add
      (.single c.previous.line (height + 1) (.jumpIfFalse 3))).size + 1 := by
    rw [hplace']
    simp [Instruction.size, Instruction.opcode]
  have hright := hclosed.readsRight .or hparse (by decide) bytes_jump hsame hn
  have hunfold : operator parse fuel c = (parse .or ((((c.openJump .jumpIfFalse).2.openJump .jump).2.closeJump
      (c.openJump .jumpIfFalse).1).emit .pop)).closeJump ((c.openJump .jumpIfFalse).2.openJump .jump).1 := by
    unfold Compiler.operator
    rw [hword]
    rfl
  unfold ReadsOperator
  rw [hunfold]
  refine hright.iff fun q => ?_
  constructor
  · rintro ⟨⟨e, rest⟩, ⟨hexpr, hreadable, hallowed, hroom⟩, hlength, rfl⟩
    refine ⟨.or left c.previous.line e, rest, .or hword hexpr, hreadable, ⟨⟨hleft.1, hallowed, hlength⟩, ?_⟩,
      ?_⟩
    · simp [Expr.code] at hroom ⊢
      omega
    · simp [Point.after, Body.add_add, Expr.code, Expr.endLine, Fragment.append_assoc, Instruction.size,
        Instruction.opcode, Opcode.width]
  · rintro ⟨e, rest, happlies, hreadable, ⟨hallowed, hroom⟩, rfl⟩
    obtain ⟨right, rfl, hexpr⟩ := (applies_or_iff hword).mp happlies
    refine ⟨(right, rest), ⟨hexpr, hreadable, hallowed.2.1, ?_⟩, hallowed.2.2, ?_⟩
    · simp [Expr.code] at hroom ⊢
      omega
    · simp [Point.after, Body.add_add, Expr.code, Expr.endLine, Fragment.append_assoc, Instruction.size,
        Instruction.opcode, Opcode.width]

/-! ### Calls -/

/-- The line of the last token of some expressions. -/
def lastLine (es : List Expr) : UInt32 := (es.getLast?.map Expr.endLine).getD 0

/-- Arguments that are read in a function after `k` others, with no comma after them, obey the
    rules and find room. -/
structure ReadsArguments (k : Nat) (tokens : List Token) (b : Body) (height : Nat) (es : List Expr)
    (rest : List Token) :
    Prop where
  read : Precedence.Arguments tokens es rest
  readable : Readable rest
  complete : ∀ token ∈ rest.head?, token.kind ≠ .comma
  allowed : Expr.AllAllowed b.locals es
  room : b.count + (Expr.codes b.locals b.count height es).constants.length ≤ Chunk.maxConstants
  few : k + es.length ≤ 255

theorem readable_of_arguments {input rest : List Token} {es : List Expr}
    (h : Precedence.Arguments input es rest) :
    Readable input := by
  cases h with
  | one h => exact readable_of_expression h
  | more h => exact readable_of_expression h

theorem arguments_succ {k : Nat} (hk : k < 255) (fuel : Nat) :
    arguments parse (operandByte k) c (fuel + 1) = if (parse .assignment c).sees .comma
      then arguments parse (operandByte (k + 1)) (parse .assignment c).accept fuel
      else (operandByte (k + 1), parse .assignment c) := by
  have hne : operandByte k ≠ 255 := by
    intro heq
    have hnat := congrArg UInt8.toNat heq
    simp only [operandByte, UInt8.toNat_ofNat'] at hnat
    have hsmall : (255 : UInt8).toNat = 255 := rfl
    omega
  have hnext : operandByte k + 1 = operandByte (k + 1) := (UInt8.ofNat_add k 1).symm
  rw [arguments]
  simp only [hne, if_false, hnext]

theorem arguments_full (hparse : Parses parse n) (h : c.At p) (hn : p.tokens.length ≤ n) (fuel : Nat) :
    (arguments parse 255 c (fuel + 1)).2.Failed := by
  have hreport : ((parse .assignment c).report .tooManyArguments).Failed := by
    rcases (hparse.reads .assignment 0 (by decide) h hn).2 with hf | ⟨q, hq⟩
    · exact failed_stable.reportLast _ _ hf
    · exact ((hparse.reads .assignment 0 (by decide) h hn).1 q hq).report _ _
  rw [arguments]
  simp only [if_true]
  split
  · exact failed_stable.arguments hparse.failed (failed_stable.accept _ hreport) _ _
  · exact hreport

/-- The arguments that begin with an expression. -/
theorem readsArguments_cons {k : Nat} {tokens rest : List Token} {es : List Expr} (hk : k < 255) :
    ReadsArguments k tokens b height es rest ↔
      ∃ e middle, (Precedence.Expression .assignment tokens e middle ∧ Readable middle ∧ e.Fits b height) ∧
        (es = [e] ∧ rest = middle ∧ (∀ token ∈ middle.head?, token.kind ≠ .comma) ∨
        ∃ comma last es', middle = comma :: last ∧ comma.kind = .comma ∧ es = e :: es' ∧
          ReadsArguments (k + 1) last (b.add (e.code b.locals b.count height)) (height + 1) es' rest) := by
  constructor
  · rintro ⟨hread, hreadable, hcomplete, hallowed, hroom, hfew⟩
    cases hread with
    | one h =>
      refine ⟨_, rest, ⟨h, hreadable, hallowed.1, ?_⟩, Or.inl ⟨rfl, rfl, hcomplete⟩⟩
      simpa [Expr.codes] using hroom
    | @more _ last _ comma e es' h hcomma hs =>
      simp only [Expr.codes, Fragment.constants_append, List.length_append] at hroom
      refine ⟨e, comma :: last, ⟨h, readable_cons hcomma (by decide), hallowed.1, by omega⟩,
        Or.inr ⟨comma, last, es', rfl, hcomma, rfl, hs, hreadable, hcomplete, hallowed.2, ?_, ?_⟩⟩
      · rw [Body.count_add, Body.locals_add]
        omega
      · rw [List.length_cons] at hfew
        omega
  · rintro ⟨e, middle, ⟨h, hreadable, hallowed, hroom⟩, ⟨rfl, rfl, hcomplete⟩ |
        ⟨comma, last, es', rfl, hcomma, rfl, hs⟩⟩
    · refine ⟨.one h, hreadable, hcomplete, ⟨hallowed, trivial⟩, ?_, hk⟩
      simpa [Expr.codes] using hroom
    · refine ⟨.more h hcomma hs.read, hs.readable, hs.complete, ⟨hallowed, hs.allowed⟩, ?_, ?_⟩
      · have := hs.room
        rw [Body.count_add, Body.locals_add] at this
        simp only [Expr.codes, Fragment.constants_append, List.length_append]
        omega
      · have := hs.few
        rw [List.length_cons]
        omega

theorem lastLine_cons {es : List Expr} (e : Expr) (h : es ≠ []) : lastLine (e :: es) = lastLine es := by
  cases es with
  | nil => exact absurd rfl h
  | cons e' es => rfl

theorem ReadsArguments.ne_nil {k : Nat} {tokens rest : List Token} {es : List Expr}
    (h : ReadsArguments k tokens b height es rest) : es ≠ [] := by
  obtain ⟨hread, -⟩ := h
  cases hread <;> simp

/-- What comes after an argument: a comma and more of them, or none. -/
def AfterArgument (k : Nat) (b : Body) (height : Nat) (x : Expr × List Token) (q : Point) : Prop :=
  (∀ token ∈ x.2.head?, token.kind ≠ .comma) ∧ q = .after x.2 b height x.1 ∨
  ∃ comma last, x.2 = comma :: last ∧ comma.kind = .comma ∧ ∃ y : List Expr × List Token,
    ReadsArguments (k + 1) last (b.add (x.1.code b.locals b.count height)) (height + 1) y.1 y.2 ∧
    q = ⟨y.2, lastLine y.1, (b.add (x.1.code b.locals b.count height)).add (Expr.codes b.locals
      (b.add (x.1.code b.locals b.count height)).count (height + 1) y.1)⟩

theorem afterArgument_iff {k : Nat} {tokens : List Token} (hk : k < 255) (q : Point) :
    (∃ x : Expr × List Token, (Precedence.Expression .assignment tokens x.1 x.2 ∧ Readable x.2 ∧
      x.1.Fits b height) ∧ AfterArgument k b height x q) ↔
    ∃ x : List Expr × List Token, ReadsArguments k tokens b height x.1 x.2 ∧
      q = ⟨x.2, lastLine x.1, b.add (Expr.codes b.locals b.count height x.1)⟩ := by
  constructor
  · rintro ⟨⟨e, middle⟩, hread, ⟨hcomplete, rfl⟩ | ⟨comma, last, hmiddle, hcomma, ⟨es, rest⟩, hs, rfl⟩⟩
    · refine ⟨([e], middle), (readsArguments_cons hk).mpr ⟨e, middle, hread, Or.inl ⟨rfl, rfl, hcomplete⟩⟩, ?_⟩
      simp [Point.after, lastLine, Expr.codes]
    · refine ⟨(e :: es, rest), (readsArguments_cons hk).mpr ⟨e, middle, hread, Or.inr ⟨comma, last, es, hmiddle,
        hcomma, rfl, hs⟩⟩, ?_⟩
      rw [lastLine_cons e hs.ne_nil, Body.count_add, Body.add_add]
      rfl
  · rintro ⟨⟨es, rest⟩, hread, rfl⟩
    obtain ⟨e, middle, hexpr, ⟨rfl, rfl, hcomplete⟩ | ⟨comma, last, es', rfl, hcomma, rfl, hs⟩⟩ :=
      (readsArguments_cons hk).mp hread
    · refine ⟨(e, rest), hexpr, Or.inl ⟨hcomplete, ?_⟩⟩
      simp [Point.after, lastLine, Expr.codes]
    · refine ⟨(e, comma :: last), hexpr, Or.inr ⟨comma, last, rfl, hcomma, (es', rest), hs, ?_⟩⟩
      rw [lastLine_cons e hs.ne_nil, Body.count_add, Body.add_add]
      rfl

/-- After an argument the compiler goes on past a comma, and is done at any other token. -/
theorem At.afterArgument {e : Expr} {middle : List Token} {next : Compiler} {k : Nat}
    (h : c.At (.after middle b height e)) (hfailed : c.accept.Failed → next.Failed)
    (hnext : ∀ comma last, middle = comma :: last →
      c.accept.At ⟨last, comma.line, b.add (e.code b.locals b.count height)⟩ →
      Outcome next fun q => ∃ x : List Expr × List Token,
        ReadsArguments (k + 1) last (b.add (e.code b.locals b.count height)) (height + 1) x.1 x.2 ∧
        q = ⟨x.2, lastLine x.1, (b.add (e.code b.locals b.count height)).add (Expr.codes b.locals
          (b.add (e.code b.locals b.count height)).count (height + 1) x.1)⟩) :
    Outcome (if c.sees .comma then next else c) (AfterArgument k b height (e, middle)) := by
  obtain ⟨token, last, hmiddle, -, -⟩ := h.exists_tokens
  change middle = token :: last at hmiddle
  subst hmiddle
  by_cases hsees : c.sees .comma = true
  · rw [if_pos hsees]
    have hcomma : token.kind = .comma := (h.sees rfl _).mp hsees
    have hrest := (h.accept rfl (hcomma ▸ by decide)).bindGuard hfailed fun _ hat => hnext token last rfl hat
    refine hrest.iff fun q => ?_
    constructor
    · rintro ⟨-, hq⟩
      exact Or.inr ⟨token, last, rfl, hcomma, hq⟩
    · rintro (⟨hcomplete, -⟩ | ⟨_, _, heq, -, ⟨es, rest⟩, hs, hq⟩)
      · exact absurd hcomma (hcomplete token rfl)
      · cases heq
        exact ⟨readable_of_arguments hs.read, (es, rest), hs, hq⟩
  · rw [if_neg hsees]
    have hother : token.kind ≠ .comma := fun hcomma => hsees ((h.sees rfl _).mpr hcomma)
    refine h.outcome.iff fun q => ?_
    constructor
    · intro hq
      refine Or.inl ⟨?_, hq⟩
      rintro _ ⟨⟩
      exact hother
    · rintro (⟨-, hq⟩ | ⟨comma, _, heq, hcomma, -⟩)
      · exact hq
      · cases heq
        exact absurd hcomma hother

/-- No arguments follow 255 others. -/
theorem not_readsArguments_full {tokens rest : List Token} {es : List Expr} :
    ¬ReadsArguments 255 tokens b height es rest := by
  intro hread
  have hfew := hread.few
  have hpositive := List.length_pos_iff.mpr hread.ne_nil
  omega

/-- The compiler of arguments is right. -/
theorem At.arguments (hparse : Parses parse n) (fuel : Nat) (h : c.At p) (hn : p.tokens.length ≤ n)
    (hfuel : p.tokens.length ≤ fuel) (k height : Nat) (hk : k ≤ 255) :
    Outcome (arguments parse (operandByte k) c fuel).2 fun q => ∃ x : List Expr × List Token,
      ReadsArguments k p.tokens p.body height x.1 x.2 ∧
        q = ⟨x.2, lastLine x.1, p.body.add (Expr.codes p.body.locals p.body.count height x.1)⟩ := by
  induction fuel generalizing c p k height with
  | zero =>
    obtain ⟨token, rest, htokens, -, -⟩ := h.exists_tokens
    rw [htokens] at hfuel
    exact absurd hfuel (Nat.not_succ_le_zero _)
  | succ fuel ih =>
    by_cases hfull : k = 255
    · subst hfull
      exact (arguments_full hparse h hn fuel).outcome fun q ⟨x, hx, _⟩ => not_readsArguments_full hx
    · have hlt : k < 255 := Nat.lt_of_le_of_ne hk hfull
      rw [arguments_succ hlt, apply_ite Prod.snd]
      refine ((hparse.reads .assignment height (by decide) h hn).reads.bindOver
          (V := AfterArgument k p.body height)
        (fun hf => ?_) ?_).iff (afterArgument_iff hlt)
      · split
        · exact failed_stable.arguments hparse.failed (failed_stable.accept _ hf) _ _
        · exact hf
      · rintro ⟨e, middle⟩ ⟨hexpr, -, -⟩ hat
        refine hat.afterArgument (failed_stable.arguments hparse.failed · (operandByte (k + 1)) fuel) ?_
        rintro comma last rfl hat'
        have hlength := hexpr.length_lt
        rw [List.length_cons] at hlength
        have hshorter : last.length ≤ n ∧ last.length ≤ fuel := by omega
        exact ih hat' hshorter.1 hshorter.2 (k + 1) (height + 1) hlt

/-- The compiler of arguments counts them. -/
theorem At.arguments_count (hparse : Parses parse n) (fuel : Nat) (h : c.At p) (hn : p.tokens.length ≤ n)
    (hfuel : p.tokens.length ≤ fuel) {k height : Nat} {es : List Expr} {rest : List Token}
    (hread : ReadsArguments k p.tokens p.body height es rest) :
    (Compiler.arguments parse (operandByte k) c fuel).1 = operandByte (k + es.length) := by
  induction fuel generalizing c p k height es with
  | zero =>
    obtain ⟨token, others, htokens, -, -⟩ := h.exists_tokens
    rw [htokens] at hfuel
    exact absurd hfuel (Nat.not_succ_le_zero _)
  | succ fuel ih =>
    have hlt : k < 255 := by
      have hfew := hread.few
      have hpositive := List.length_pos_iff.mpr hread.ne_nil
      omega
    have hfirst := (hparse.reads .assignment height (by decide) h hn).reads
    rw [arguments_succ hlt]
    obtain ⟨e, middle, hexpr, ⟨rfl, rfl, hcomplete⟩ | ⟨comma, last, es', rfl, hcomma, rfl, hs⟩⟩ :=
      (readsArguments_cons hlt).mp hread
    · have hat := hfirst.1 _ ⟨(e, rest), hexpr, rfl⟩
      have hsees : ¬(parse .assignment c).sees .comma = true := by
        obtain ⟨token, last, hrest, -, -⟩ := hat.exists_tokens
        change rest = token :: last at hrest
        subst hrest
        exact fun hsees => hcomplete token rfl ((hat.sees rfl _).mp hsees)
      rw [if_neg hsees]
      rfl
    · have hat := hfirst.1 _ ⟨(e, comma :: last), hexpr, rfl⟩
      have hat' := (hat.accept rfl (hcomma ▸ by decide)).1 _ ⟨readable_of_arguments hs.read, rfl⟩
      have hlength := hexpr.1.length_lt
      rw [List.length_cons] at hlength
      have hshorter : last.length ≤ n ∧ last.length ≤ fuel := by omega
      rw [if_pos ((hat.sees rfl _).mpr hcomma), ih hat' hshorter.1 hshorter.2 hs, List.length_cons]
      congr 1
      omega

theorem applies_call_iff {left e : Expr} {input rest : List Token} (hword : word.kind = .leftParen) :
    Applies left word input e rest ↔
      (∃ close, input = close :: rest ∧ close.kind = .rightParen ∧ e = .call left [] close.line) ∨
      ∃ es close, Precedence.Arguments input es (close :: rest) ∧ close.kind = .rightParen ∧
        e = .call left es close.line := by
  constructor
  · intro h
    cases h with
    | or h | and h => simp [hword] at h
    | binary h => simp [BinaryOp.ofKind?, hword] at h
    | bareCall _ hclose => exact Or.inl ⟨_, rfl, hclose, rfl⟩
    | call _ harguments hclose => exact Or.inr ⟨_, _, harguments, hclose, rfl⟩
  · rintro (⟨close, rfl, hclose, rfl⟩ | ⟨es, close, harguments, hclose, rfl⟩)
    · exact .bareCall hword hclose
    · exact .call hword harguments hclose

theorem operator_call (hword : c.previous.kind = .leftParen) (fuel : Nat) :
    operator parse fuel c = if c.sees .rightParen then (c.expect .rightParen .closeArguments).emit (.call 0)
      else ((arguments parse (operandByte 0) c fuel).2.expect .rightParen .closeArguments).emit
        (.call (arguments parse (operandByte 0) c fuel).1) := by
  unfold Compiler.operator
  rw [hword]
  dsimp only
  unfold Compiler.callOperator
  by_cases hsees : c.sees .rightParen = true
  · rw [if_pos hsees, if_pos hsees]
  · rw [if_neg hsees, if_neg hsees]
    rfl

/-- An expression does not begin with a closing parenthesis. -/
theorem not_arguments_rightParen {close : Token} {input rest : List Token} {es : List Expr}
    (hclose : close.kind = .rightParen) : ¬Precedence.Arguments (close :: input) es rest := by
  have hnot : ∀ {e : Expr} {rest : List Token}, ¬Precedence.Expression .assignment (close :: input) e rest := by
    rintro e rest ⟨hfirst, -, -⟩
    cases hfirst with
    | literal htoken => simp [Literal.ofToken?, hclose] at htoken
    | mention hname => simp [hclose] at hname
    | assign hname => simp [hclose] at hname
    | group hopen => simp [hclose] at hopen
    | unary hword => simp [UnaryOp.ofKind?, hclose] at hword
  rintro (h | ⟨h, -, -⟩)
  · exact hnot h
  · exact hnot h

/-- A call with nothing between its parentheses. -/
theorem At.readsOperator_bareCall {left : Expr} {tokens : List Token} {line : UInt32} {close : Token}
    (h : c.At ⟨close :: tokens, line, b.add (left.code b.locals b.count height)⟩)
    (hleft : left.Fits b height) (hword : c.previous.kind = .leftParen) (hclose : close.kind = .rightParen)
    (fuel : Nat) : ReadsOperator parse fuel c (close :: tokens) b height left := by
  unfold ReadsOperator
  rw [operator_call hword, if_pos ((h.sees rfl _).mpr hclose)]
  have hbind := (h.expect .rightParen (by decide) .closeArguments).bind
    (fun hf => failed_stable.emit hf (.call 0))
    fun r _ hat => (hat.emit (.call 0) (height + 1)).outcome
  refine hbind.iff fun q => ?_
  constructor
  · rintro ⟨_, ⟨_, rest, htokens, _, hreadable, rfl⟩, rfl⟩
    cases htokens
    refine ⟨.call left [] close.line, tokens, .bareCall hword hclose, hreadable,
      ⟨⟨hleft.1, trivial, by decide⟩, ?_⟩, ?_⟩
    · simpa [Expr.code, Expr.codes] using hleft.2
    · simp [Point.after, Point.add, Body.add_add, Expr.code, Expr.codes, Expr.endLine]
  · rintro ⟨e, rest, happlies, hreadable, -, rfl⟩
    rcases (applies_call_iff hword).mp happlies with ⟨_, htokens, -, rfl⟩ | ⟨es, _, harguments, -, -⟩
    · cases htokens
      refine ⟨_, ⟨close, tokens, rfl, hclose, hreadable, rfl⟩, ?_⟩
      simp [Point.after, Point.add, Body.add_add, Expr.code, Expr.codes, Expr.endLine]
    · exact absurd harguments (not_arguments_rightParen hclose)

/-- The arguments of a call that fits are read after its callee. -/
theorem readsArguments_of_fits {left : Expr} {tokens rest : List Token} {es : List Expr} {close : Token}
    (hread : Precedence.Arguments tokens es (close :: rest)) (hclose : close.kind = .rightParen)
    (hfits : (Expr.call left es close.line).Fits b height) :
    ReadsArguments 0 tokens (b.add (left.code b.locals b.count height)) (height + 1) es (close :: rest) := by
  obtain ⟨hallowed, hroom⟩ := hfits
  refine ⟨hread, readable_cons hclose (by decide), ?_, hallowed.2.1, ?_, ?_⟩
  · rintro _ ⟨⟩
    rw [hclose]
    decide
  · simp [Expr.code] at hroom ⊢
    omega
  · have := hallowed.2.2
    omega

/-- A call with arguments. -/
theorem At.readsOperator_callWith {left : Expr} {tokens : List Token} {line : UInt32}
    (hparse : Parses parse n) (h : c.At ⟨tokens, line, b.add (left.code b.locals b.count height)⟩)
    (hleft : left.Fits b height) (hword : c.previous.kind = .leftParen) (hsees : ¬c.sees .rightParen = true)
    (fuel : Nat) (hn : tokens.length ≤ n) (hfuel : tokens.length ≤ fuel) :
    ReadsOperator parse fuel c tokens b height left := by
  unfold ReadsOperator
  rw [operator_call hword, if_neg hsees]
  have hemit : ∀ x : List Expr × List Token, ReadsArguments 0 tokens
      (b.add (left.code b.locals b.count height)) (height + 1) x.1 x.2 → ∀ p : Point,
      (Compiler.arguments parse (operandByte 0) c fuel).2.At p →
      Outcome (((Compiler.arguments parse (operandByte 0) c fuel).2.expect .rightParen .closeArguments).emit
        (.call (Compiler.arguments parse (operandByte 0) c fuel).1)) fun q => ∃ r, Takes .rightParen p r ∧
          q = r.add (.single r.line (height + 1 + x.1.length) (.call (operandByte x.1.length))) := by
    intro x hx p hat
    rw [h.arguments_count hparse fuel hn hfuel hx, Nat.zero_add]
    exact (hat.expect .rightParen (by decide) .closeArguments).bind (fun hf => failed_stable.emit hf _)
      fun r _ hat' => (hat'.emit _ _).outcome
  have hbind := (h.arguments hparse fuel hn hfuel 0 (height + 1) (by decide)).bindOver
    (fun hf => failed_stable.emit (failed_stable.expect hf .rightParen .closeArguments)
      (.call (Compiler.arguments parse (operandByte 0) c fuel).1)) fun x hx hat => hemit x hx _ hat
  refine hbind.iff fun q => ?_
  constructor
  · rintro ⟨⟨es, _⟩, hread, _, ⟨close, rest, rfl, hclose, hreadable, rfl⟩, rfl⟩
    have hfew : 0 + es.length ≤ 255 := hread.few
    have hroom := hread.room
    refine ⟨.call left es close.line, rest, .call hword hread.read hclose, hreadable,
      ⟨⟨hleft.1, hread.allowed, by omega⟩, ?_⟩, ?_⟩
    · simp [Expr.code] at hroom ⊢
      omega
    · simp [Point.after, Point.add, Body.add_add, Expr.code, Expr.endLine, Fragment.append_assoc]
  · rintro ⟨e, rest, happlies, hreadable, hfits, rfl⟩
    rcases (applies_call_iff hword).mp happlies with ⟨close, rfl, hclose, rfl⟩ | ⟨es, close, hread, hclose, rfl⟩
    · exact absurd ((h.sees rfl _).mpr hclose) hsees
    · refine ⟨(es, close :: rest), readsArguments_of_fits hread hclose hfits, _,
        ⟨close, rest, rfl, hclose, hreadable, rfl⟩, ?_⟩
      simp [Point.after, Point.add, Body.add_add, Expr.code, Expr.endLine, Fragment.append_assoc]

theorem At.readsOperator_call {left : Expr} {tokens : List Token} {line : UInt32}
    (hparse : Parses parse n) (h : c.At ⟨tokens, line, b.add (left.code b.locals b.count height)⟩)
    (hleft : left.Fits b height) (hword : c.previous.kind = .leftParen) (fuel : Nat) (hn : tokens.length ≤ n)
    (hfuel : tokens.length ≤ fuel) : ReadsOperator parse fuel c tokens b height left := by
  by_cases hsees : c.sees .rightParen = true
  · obtain ⟨close, others, htokens, -, -⟩ := h.exists_tokens
    change tokens = close :: others at htokens
    subst htokens
    exact h.readsOperator_bareCall hleft hword ((h.sees rfl _).mp hsees) fuel
  · exact h.readsOperator_callWith hparse hleft hword hsees fuel hn hfuel

/-! ### Operators and expressions -/

/-- An operator of any kind. -/
theorem At.operator {left : Expr} {tokens : List Token} (hparse : Parses parse n)
    (h : c.At ⟨tokens, c.previous.line, b.add (left.code b.locals b.count height)⟩) (hleft : left.Fits b height)
    (hlevel : Level.none.rank < (Level.ofKind c.previous.kind).rank) (fuel : Nat) (hn : tokens.length ≤ n)
    (hfuel : tokens.length ≤ fuel) : ReadsOperator parse fuel c tokens b height left := by
  cases hkind : c.previous.kind with
  | leftParen => exact h.readsOperator_call hparse hleft hkind fuel hn hfuel
  | andWord => exact h.readsOperator_and hparse hleft hkind fuel hn
  | orWord => exact h.readsOperator_or hparse hleft hkind fuel hn
  | minus | plus | slash | star | bangEqual | equalEqual | greater | greaterEqual | less | lessEqual =>
    exact h.readsOperator_binary hparse hleft (by rw [hkind]; rfl) fuel hn
  | _ =>
    rw [hkind] at hlevel
    exact absurd hlevel (Nat.lt_irrefl _)

theorem readable_of_applies {left e : Expr} {input rest : List Token} (h : Applies left word input e rest) :
    Readable input := by
  cases h with
  | or _ hright => exact readable_of_expression hright
  | and _ hright => exact readable_of_expression hright
  | binary _ hright => exact readable_of_expression hright
  | bareCall _ hclose => exact readable_cons hclose (by decide)
  | call _ harguments => exact readable_of_arguments harguments

theorem readable_of_operators {level : Level} {left e : Expr} {input rest : List Token}
    (h : Precedence.Operators level left input e rest) (hlevel : Level.none.rank < level.rank)
    (hrest : Readable rest) :
    Readable input := by
  rcases Precedence.operators_iff.mp h with ⟨-, -, rfl⟩ | ⟨word, middle, larger, last, rfl, hle, -, -⟩
  · exact hrest
  · refine readable_cons rfl fun heq => ?_
    rw [heq] at hle
    exact absurd (Nat.lt_of_lt_of_le hlevel hle) (Nat.lt_irrefl _)

/-- The operators after a left side. -/
theorem At.operators {left : Expr} {tokens : List Token} {level : Level} (hparse : Parses parse n)
    (hlevel : level ≠ .none) (fuel : Nat) (h : c.At (.after tokens b height left)) (hleft : left.Fits b height)
    (hn : tokens.length ≤ n) (hfuel : tokens.length ≤ fuel) :
    Outcome (operators parse level c fuel) (Reads (Precedence.Operators level left tokens) b height) := by
  induction fuel generalizing c left tokens with
  | zero =>
    obtain ⟨token, rest, htokens, -, -⟩ := h.exists_tokens
    change tokens = token :: rest at htokens
    rw [htokens] at hfuel
    exact absurd hfuel (Nat.not_succ_le_zero _)
  | succ fuel ih =>
    obtain ⟨token, input, htokens, hcurrent, -⟩ := h.exists_tokens
    change tokens = token :: input at htokens
    subst htokens
    have hpositive : Level.none.rank < level.rank := by cases level <;> first | exact absurd rfl hlevel | decide
    rw [Compiler.operators, hcurrent]
    by_cases hstops : level.rank ≤ (Level.ofKind token.kind).rank
    · rw [if_pos hstops]
      have hkind : token.kind ≠ .endOfInput := by
        intro heq
        rw [heq] at hstops
        exact absurd (Nat.lt_of_lt_of_le hpositive hstops) (Nat.lt_irrefl _)
      have hprevious : c.accept.previous = token := (previous_accept c).trans hcurrent
      rw [List.length_cons] at hn hfuel
      have haccept := (h.accept rfl hkind).bindGuard
        (d := Compiler.operators parse level (Compiler.operator parse fuel c.accept) fuel)
        (U := fun q => ∃ x : Expr × List Token,
        (Applies left token input x.1 x.2 ∧ Readable x.2 ∧ x.1.Fits b height) ∧
          Reads (Precedence.Operators level x.1 x.2) b height q)
        (fun hf => failed_stable.operators hparse.failed (failed_stable.operator hparse.failed hf fuel) level
          fuel) ?_
      · refine haccept.iff fun q => ?_
        constructor
        · rintro ⟨-, ⟨larger, middle⟩, ⟨happlies, -, -⟩, e, rest, hread, hreadable, hfits, rfl⟩
          exact ⟨e, rest, Precedence.operators_iff.mpr
              (Or.inr ⟨token, input, larger, middle, rfl, hstops, happlies, hread⟩),
            hreadable, hfits, rfl⟩
        · rintro ⟨e, rest, hread, hreadable, hfits, rfl⟩
          rcases Precedence.operators_iff.mp hread with ⟨hstop, -, -⟩ |
            ⟨word, middle, larger, last, heq, -, happlies, hrest⟩
          · exact absurd hstops (Nat.not_le.mpr (hstop token rfl))
          · cases heq
            have hlarger := fits_of_operators hrest hfits
            exact ⟨readable_of_applies happlies, (larger, last),
              ⟨happlies, readable_of_operators hrest hpositive hreadable,
              hlarger⟩, e, rest, hrest, hreadable, hfits, rfl⟩
      · intro hreadable hat
        have hoperator := At.operator (c := c.accept) hparse (hprevious ▸ hat) hleft
          (by rw [hprevious]; exact Nat.lt_of_lt_of_le hpositive hstops) fuel (by omega) (by omega)
        unfold ReadsOperator at hoperator
        rw [hprevious] at hoperator
        refine hoperator.reads.bindOver (fun hf => failed_stable.operators hparse.failed hf level fuel)
          fun x hx hat' => ?_
        have hlength := hx.1.length_lt
        exact ih hat' hx.2.2 (by omega) (by omega)
    · rw [if_neg hstops]
      refine h.outcome.iff fun q => ?_
      constructor
      · rintro rfl
        have hstop : Stops level (token :: input) := by
          rintro _ ⟨⟩
          exact Nat.lt_of_not_le hstops
        exact ⟨left, token :: input, .stop hstop, h.readableTokens, hleft, rfl⟩
      · rintro ⟨e, rest, hread, -, -, rfl⟩
        rcases Precedence.operators_iff.mp hread with ⟨-, rfl, rfl⟩ | ⟨word, middle, larger, last, heq, hle, -⟩
        · rfl
        · cases heq
          exact absurd hle hstops

/-- After a token is accepted, a report is a failure. -/
theorem At.report_accept (h : c.At p) (cause : Diagnostic.Cause) : (c.accept.report cause).Failed := by
  have hshift : ∀ (tokens : List Token) (d : Compiler), d.panicking = false →
      (d.shift tokens).Failed ∨ (d.shift tokens).panicking = false := by
    intro tokens d hcalm
    cases tokens with
    | nil => exact Or.inr hcalm
    | cons token tokens =>
      unfold Compiler.shift
      split
      · exact Or.inl ((failed_reportAt hcalm _ _).shift tokens)
      · exact Or.inr hcalm
  rcases hshift c.rest { c with previous := c.current } h.calm with hf | hcalm
  · exact failed_stable.reportLast _ _ hf
  · exact failed_reportAt hcalm _ _

/-- The end of an expression: an `=` after one that could have been an assignment has no valid target. -/
def checkTarget (assignable : Bool) (c : Compiler) : Compiler :=
  if assignable && c.sees .equal then c.accept.report .invalidTarget else c

theorem Failed.checkTarget (h : c.Failed) (assignable : Bool) : (checkTarget assignable c).Failed := by
  unfold Compiler.checkTarget
  split
  · exact failed_stable.reportLast _ _ (failed_stable.accept _ h)
  · exact h

theorem At.checkTarget (h : c.At p) (assignable : Bool) :
    Outcome (checkTarget assignable c) fun q => (assignable = true → NoEqual p.tokens) ∧ q = p := by
  unfold Compiler.checkTarget
  refine outcome_guard (fun hnext => ?_) fun hnot => ?_
  · rw [if_neg]
    · exact h
    · intro hboth
      obtain ⟨hassignable, hsees⟩ : assignable = true ∧ c.sees .equal = true := by simpa using hboth
      exact h.sees_equal.mp hsees (hnext hassignable)
  · rw [if_pos]
    · exact h.report_accept _
    · obtain ⟨hassignable, hequal⟩ := Classical.not_imp.mp hnot
      simp [hassignable, h.sees_equal.mpr hequal]

/-- An operand begins with a word with which an expression can begin. -/
theorem startsExpression_of_operand {assignable : Bool} {token : Token} {input rest : List Token} {e : Expr}
    (h : Precedence.Operand assignable token input e rest) : startsExpression token.kind = true := by
  cases h with
  | literal htoken =>
    unfold Literal.ofToken? at htoken
    split at htoken <;> simp_all [startsExpression]
  | mention hname => rw [hname]; rfl
  | assign hname => rw [hname]; rfl
  | group hopen => rw [hopen]; rfl
  | unary hword =>
    unfold UnaryOp.ofKind? at hword
    split at hword <;> simp_all [startsExpression]

theorem readable_after_first {assignable : Bool} {token : Token} {input rest : List Token} {e : Expr}
    (h : Precedence.Operand assignable token input e rest) (hrest : Readable rest) : Readable input := by
  cases h with
  | literal => exact hrest
  | mention => exact hrest
  | assign _ hequal => exact readable_cons hequal (by decide)
  | group _ hinner => exact readable_of_expression hinner
  | unary _ hoperand => exact readable_of_expression hoperand

/-- The compiler of expressions is right: it reads by precedence, and writes the code of what it reads. -/
theorem parses_expression (fuel : Nat) : Parses (expression fuel) fuel := by
  induction fuel with
  | zero =>
    refine ⟨fun level c p height hlevel h hn => ?_, failed_stable.expression 0⟩
    obtain ⟨token, rest, htokens, -, -⟩ := h.exists_tokens
    rw [htokens] at hn
    exact absurd hn (Nat.not_succ_le_zero _)
  | succ fuel ih =>
    refine ⟨fun level c p height hlevel h hn => ?_, failed_stable.expression (fuel + 1)⟩
    obtain ⟨token, input, htokens, hcurrent, -⟩ := h.exists_tokens
    have hprevious : c.accept.previous = token := (previous_accept c).trans hcurrent
    have hpositive : Level.none.rank < level.rank := by cases level <;> first | exact absurd rfl hlevel | decide
    rw [htokens] at hn ⊢
    rw [List.length_cons] at hn
    by_cases hstarts : startsExpression token.kind = true
    · have hkind : token.kind ≠ .endOfInput := by
        intro heq
        rw [heq] at hstarts
        cases hstarts
      have hunfold : expression (fuel + 1) level c = checkTarget (level.rank ≤ Level.assignment.rank)
          (operators (expression fuel) level
            (operand (expression fuel) (level.rank ≤ Level.assignment.rank) c.accept) fuel) := by
        rw [expression]
        dsimp only
        rw [hprevious, if_pos hstarts]
        rfl
      rw [hunfold]
      generalize hassignable : decide (level.rank ≤ Level.assignment.rank) = assignable
      have hread := (h.accept htokens hkind).bindGuard
        (d := checkTarget assignable (operators (expression fuel) level
          (operand (expression fuel) assignable c.accept) fuel))
        (U := fun q => ∃ x : Expr × List Token,
        (Precedence.Operand assignable token input x.1 x.2 ∧ Readable x.2 ∧
          x.1.Fits p.body height) ∧ ∃ r, Reads (Precedence.Operators level x.1 x.2) p.body height r ∧
          (assignable = true → NoEqual r.tokens) ∧ q = r)
        (fun hf => (failed_stable.operators ih.failed (failed_stable.operand ih.failed hf assignable) level
          fuel).checkTarget assignable) ?_
      · refine hread.iff fun q => ?_
        constructor
        · rintro ⟨-, ⟨first, middle⟩, ⟨hfirst, -, -⟩, _, ⟨e, rest, hrest, hreadable, hfits, rfl⟩, hend, rfl⟩
          refine ⟨e, rest, .mk (hassignable ▸ hfirst) hrest fun hle => hend ?_, hreadable, hfits, rfl⟩
          rw [← hassignable]
          exact decide_eq_true hle
        · rintro ⟨e, rest, ⟨hfirst, hrest, hend⟩, hreadable, hfits, rfl⟩
          rw [hassignable] at hfirst
          have hmiddle := readable_of_operators hrest hpositive hreadable
          refine ⟨readable_after_first hfirst hmiddle, (_, _),
            ⟨hfirst, hmiddle, fits_of_operators hrest hfits⟩, _,
            ⟨e, rest, hrest, hreadable, hfits, rfl⟩, fun htrue => hend ?_, rfl⟩
          rw [← hassignable] at htrue
          exact of_decide_eq_true htrue
      · intro _ hat
        have hoperand := At.operand (c := c.accept) ih hat (by rw [hprevious]; exact hstarts) assignable height
          (Nat.le_of_succ_le_succ hn)
        unfold ReadsOperand at hoperand
        rw [hprevious] at hoperand
        refine hoperand.reads.bindOver
          (fun hf => (failed_stable.operators ih.failed hf level fuel).checkTarget assignable)
          fun x hx hat' => ?_
        have hlength : x.2.length ≤ input.length := hx.1.length_le
        exact (hat'.operators ih hlevel fuel hx.2.2 (by omega) (by omega)).bind
          (fun hf => hf.checkTarget assignable)
          fun r _ hat'' => hat''.checkTarget assignable
    · have hunfold : expression (fuel + 1) level c = c.accept.report (.expected .expression) := by
        rw [expression]
        dsimp only
        rw [hprevious, if_neg hstarts]
      rw [hunfold]
      refine (h.report_accept _).outcome ?_
      rintro q ⟨e, rest, ⟨hfirst, -, -⟩, -, -, -⟩
      exact hstarts (startsExpression_of_operand hfirst)

end Lox.Compiler
