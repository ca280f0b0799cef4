import Lox.Compiler.Expression
import Lox.Proofs.Tree

/-! # The grammar

Which token sequences are programs, and the tree of each. A derivation relates the tokens that are left before
a construct, its tree, and the tokens that are left after it. Expressions have levels, from assignments, which
bind most loosely, to primaries. -/

namespace Lox

/-! ### Words -/

/-- The literal that a token is. A string is kept without its quotes. -/
def Literal.ofToken? (token : Token) : Option Literal :=
  match token.kind with
  | .nilWord => some .nil
  | .trueWord => some (.bool true)
  | .falseWord => some (.bool false)
  | .number => some (.number (Number.ofLiteral token.lexeme))
  | .string => some (.string (String.ofList (token.lexeme.toList.drop 1).dropLast))
  | _ => none

/-- The operator that a word is before an operand. -/
def UnaryOp.ofKind? : Token.Kind → Option UnaryOp
  | .minus => some .negate
  | .bang => some .logicalNot
  | _ => none

/-- The operator that a word is between two operands. -/
def BinaryOp.ofKind? : Token.Kind → Option BinaryOp
  | .equalEqual => some .equal
  | .bangEqual => some .notEqual
  | .greater => some .greater
  | .greaterEqual => some .greaterEqual
  | .less => some .less
  | .lessEqual => some .lessEqual
  | .plus => some .add
  | .minus => some .subtract
  | .star => some .multiply
  | .slash => some .divide
  | _ => none

/-- The level of the operators between two operands. -/
def BinaryOp.level : BinaryOp → Level
  | equal | notEqual => .equality
  | greater | greaterEqual | less | lessEqual => .comparison
  | add | subtract => .term
  | multiply | divide => .factor

theorem Literal.kind_ne_error {token : Token} {value : Literal} (h : Literal.ofToken? token = some value) :
    token.kind ≠ .error := by
  intro herror
  simp [Literal.ofToken?, herror] at h

theorem UnaryOp.kind_ne_error {kind : Token.Kind} {op : UnaryOp} (h : UnaryOp.ofKind? kind = some op) :
    kind ≠ .error := by
  rintro rfl
  cases h

theorem BinaryOp.kind_ne_error {kind : Token.Kind} {op : BinaryOp} (h : BinaryOp.ofKind? kind = some op) :
    kind ≠ .error := by
  rintro rfl
  cases h

namespace Grammar

/-! ### Expressions -/

mutual

/-- An expression of a level. -/
inductive Expression : Level → List Token → Expr → List Token → Prop where
  /-- A target is a bare name, and assignments associate to the right. -/
  | assign {name equal : Token} {input rest : List Token} {value : Expr} (hname : name.kind = .identifier)
      (hequal : equal.kind = .equal) (hvalue : Expression .assignment input value rest) :
      Expression .assignment (name :: equal :: input) (.assign name.lexeme value) rest
  | or {input middle rest : List Token} {word : Token} {left right : Expr}
      (hleft : Expression .and input left (word :: middle)) (hword : word.kind = .orWord)
      (hright : Expression .or middle right rest) : Expression .or input (.or left word.line right) rest
  | and {input middle rest : List Token} {word : Token} {left right : Expr}
      (hleft : Expression .equality input left (word :: middle)) (hword : word.kind = .andWord)
      (hright : Expression .and middle right rest) : Expression .and input (.and left word.line right) rest
  /-- The other operators between two operands associate to the left. -/
  | binary {input middle rest : List Token} {word : Token} {op : BinaryOp} {left right : Expr}
      (hleft : Expression op.level input left (word :: middle)) (hword : BinaryOp.ofKind? word.kind = some op)
      (hright : Expression op.level.next middle right rest) :
      Expression op.level input (.binary op left right) rest
  | unary {word : Token} {input rest : List Token} {op : UnaryOp} {operand : Expr}
      (hword : UnaryOp.ofKind? word.kind = some op) (hoperand : Expression .unary input operand rest) :
      Expression .unary (word :: input) (.unary op operand) rest
  | bareCall {input rest : List Token} {left right : Token} {callee : Expr}
      (hcallee : Expression .call input callee (left :: right :: rest)) (hopen : left.kind = .leftParen)
      (hclose : right.kind = .rightParen) : Expression .call input (.call callee [] right.line) rest
  | call {input middle rest : List Token} {left right : Token} {callee : Expr} {arguments : List Expr}
      (hcallee : Expression .call input callee (left :: middle)) (hopen : left.kind = .leftParen)
      (harguments : Arguments middle arguments (right :: rest)) (hclose : right.kind = .rightParen) :
      Expression .call input (.call callee arguments right.line) rest
  | literal {token : Token} {rest : List Token} {value : Literal}
      (htoken : Literal.ofToken? token = some value) :
      Expression .primary (token :: rest) (.literal value token.line) rest
  | mention {name : Token} {rest : List Token} (hname : name.kind = .identifier) :
      Expression .primary (name :: rest) (.mention name.lexeme name.line) rest
  | group {left right : Token} {input rest : List Token} {inner : Expr} (hopen : left.kind = .leftParen)
      (hinner : Expression .assignment input inner (right :: rest)) (hclose : right.kind = .rightParen) :
      Expression .primary (left :: input) (.group inner right.line) rest
  /-- An expression of the next tighter level. -/
  | tighter {level : Level} {input rest : List Token} {e : Expr} (hlevel : level ≠ .none)
      (h : Expression level.next input e rest) : Expression level input e rest

/-- One or more arguments with commas between them. -/
inductive Arguments : List Token → List Expr → List Token → Prop where
  | one {input rest : List Token} {e : Expr} (h : Expression .assignment input e rest) :
      Arguments input [e] rest
  | more {input middle rest : List Token} {comma : Token} {e : Expr} {es : List Expr}
      (h : Expression .assignment input e (comma :: middle)) (hcomma : comma.kind = .comma)
      (hs : Arguments middle es rest) : Arguments input (e :: es) rest

end

/-! ### Statements and declarations -/

/-- The declaration of a variable, after the word `var`. -/
inductive VariableDecl : List Token → Variable → List Token → Prop where
  | bare {name semicolon : Token} {rest : List Token} (hname : name.kind = .identifier)
      (hsemicolon : semicolon.kind = .semicolon) :
      VariableDecl (name :: semicolon :: rest) ⟨name.lexeme, name.line, none, semicolon.line⟩ rest
  | initial {name equal semicolon : Token} {input rest : List Token} {e : Expr}
      (hname : name.kind = .identifier)
      (hequal : equal.kind = .equal) (he : Expression .assignment input e (semicolon :: rest))
      (hsemicolon : semicolon.kind = .semicolon) :
      VariableDecl (name :: equal :: input) ⟨name.lexeme, name.line, some e, semicolon.line⟩ rest

/-- The first clause of a `for` statement, with its semicolon. -/
inductive First : List Token → Initializer → List Token → Prop where
  | empty {semicolon : Token} {rest : List Token} (hsemicolon : semicolon.kind = .semicolon) :
      First (semicolon :: rest) .empty rest
  | var {word : Token} {input rest : List Token} {v : Variable} (hword : word.kind = .varWord)
      (hv : VariableDecl input v rest) : First (word :: input) (.var v) rest
  | expression {input rest : List Token} {e : Expr} {semicolon : Token}
      (he : Expression .assignment input e (semicolon :: rest)) (hsemicolon : semicolon.kind = .semicolon) :
      First input (.expression e semicolon.line) rest

/-- The second clause of a `for` statement, with the line of its semicolon. -/
inductive Second : List Token → Option Expr → UInt32 → List Token → Prop where
  | empty {semicolon : Token} {rest : List Token} (hsemicolon : semicolon.kind = .semicolon) :
      Second (semicolon :: rest) none semicolon.line rest
  | expression {input rest : List Token} {e : Expr} {semicolon : Token}
      (he : Expression .assignment input e (semicolon :: rest)) (hsemicolon : semicolon.kind = .semicolon) :
      Second input (some e) semicolon.line rest

/-- The third clause of a `for` statement, with the parenthesis after it. -/
inductive Third : List Token → Option (Expr × UInt32) → List Token → Prop where
  | empty {close : Token} {rest : List Token} (hclose : close.kind = .rightParen) :
      Third (close :: rest) none rest
  | expression {input rest : List Token} {e : Expr} {close : Token}
      (he : Expression .assignment input e (close :: rest)) (hclose : close.kind = .rightParen) :
      Third input (some (e, close.line)) rest

/-- One or more parameters with commas between them. -/
inductive Parameters : List Token → List String → List Token → Prop where
  | one {name : Token} {rest : List Token} (hname : name.kind = .identifier) :
      Parameters (name :: rest) [name.lexeme] rest
  | more {name comma : Token} {input rest : List Token} {names : List String} (hname : name.kind = .identifier)
      (hcomma : comma.kind = .comma) (h : Parameters input names rest) :
      Parameters (name :: comma :: input) (name.lexeme :: names) rest

/-- The parameters of a function with the parentheses around them. -/
inductive Signature : List Token → List String → List Token → Prop where
  | bare {left right : Token} {rest : List Token} (hopen : left.kind = .leftParen)
      (hclose : right.kind = .rightParen) :
      Signature (left :: right :: rest) [] rest
  | named {left right : Token} {input rest : List Token} {names : List String} (hopen : left.kind = .leftParen)
      (h : Parameters input names (right :: rest)) (hclose : right.kind = .rightParen) :
      Signature (left :: input) names rest

mutual

/-- A statement. -/
inductive Statement : List Token → Stmt → List Token → Prop where
  | print {word semicolon : Token} {input rest : List Token} {e : Expr} (hword : word.kind = .printWord)
      (he : Expression .assignment input e (semicolon :: rest)) (hsemicolon : semicolon.kind = .semicolon) :
      Statement (word :: input) (.print e semicolon.line) rest
  | expression {semicolon : Token} {input rest : List Token} {e : Expr}
      (he : Expression .assignment input e (semicolon :: rest)) (hsemicolon : semicolon.kind = .semicolon) :
      Statement input (.expression e semicolon.line) rest
  | bareReturn {word semicolon : Token} {rest : List Token} (hword : word.kind = .returnWord)
      (hsemicolon : semicolon.kind = .semicolon) :
        Statement (word :: semicolon :: rest) (.ret none semicolon.line) rest
  | ret {word semicolon : Token} {input rest : List Token} {e : Expr} (hword : word.kind = .returnWord)
      (he : Expression .assignment input e (semicolon :: rest)) (hsemicolon : semicolon.kind = .semicolon) :
      Statement (word :: input) (.ret (some e) semicolon.line) rest
  /-- Without an `else` at hand: one that follows belongs to this `if`. -/
  | ifThen {word left right : Token} {input middle rest : List Token} {e : Expr} {s : Stmt}
      (hword : word.kind = .ifWord) (hopen : left.kind = .leftParen)
      (he : Expression .assignment input e (right :: middle)) (hclose : right.kind = .rightParen)
      (hs : Statement middle s rest) (helse : ∀ token ∈ rest.head?, token.kind ≠ .elseWord) :
      Statement (word :: left :: input) (.ifElse e right.line s none) rest
  | ifElse {word left right other : Token} {input middle last rest : List Token} {e : Expr} {s t : Stmt}
      (hword : word.kind = .ifWord) (hopen : left.kind = .leftParen)
      (he : Expression .assignment input e (right :: middle)) (hclose : right.kind = .rightParen)
      (hs : Statement middle s (other :: last)) (hother : other.kind = .elseWord) (ht : Statement last t rest) :
      Statement (word :: left :: input) (.ifElse e right.line s (some t)) rest
  | whileLoop {word left right : Token} {input middle rest : List Token} {e : Expr} {s : Stmt}
      (hword : word.kind = .whileWord) (hopen : left.kind = .leftParen)
      (he : Expression .assignment input e (right :: middle)) (hclose : right.kind = .rightParen)
      (hs : Statement middle s rest) : Statement (word :: left :: input) (.whileLoop e right.line s) rest
  | forLoop {word left : Token} {input second third body rest : List Token} {i : Initializer}
      {condition : Option Expr}
      {line : UInt32} {increment : Option (Expr × UInt32)} {s : Stmt} (hword : word.kind = .forWord)
      (hopen : left.kind = .leftParen) (hfirst : First input i second)
        (hsecond : Second second condition line third)
      (hthird : Third third increment body) (hs : Statement body s rest) :
      Statement (word :: left :: input) (.forLoop i condition line increment s) rest
  | block {left right : Token} {input rest : List Token} {ds : List Decl} (hopen : left.kind = .leftBrace)
      (hds : Declarations input ds (right :: rest)) (hclose : right.kind = .rightBrace) :
      Statement (left :: input) (.block ds right.line) rest

/-- A declaration. -/
inductive Declaration : List Token → Decl → List Token → Prop where
  | var {word : Token} {input rest : List Token} {v : Variable} (hword : word.kind = .varWord)
      (hv : VariableDecl input v rest) : Declaration (word :: input) (.var v) rest
  | function {word name left right : Token} {input body rest : List Token} {parameters : List String}
      {ds : List Decl}
      (hword : word.kind = .funWord) (hname : name.kind = .identifier)
        (hparameters : Signature input parameters (left :: body))
      (hopen : left.kind = .leftBrace) (hds : Declarations body ds (right :: rest))
        (hclose : right.kind = .rightBrace) :
      Declaration (word :: name :: input)
        (.function name.lexeme ⟨input.length + 1, parameters, ds, right.line⟩) rest
  | statement {input rest : List Token} {s : Stmt} (hs : Statement input s rest) :
      Declaration input (.statement s) rest

/-- Any number of declarations. -/
inductive Declarations : List Token → List Decl → List Token → Prop where
  | none {rest : List Token} : Declarations rest [] rest
  | more {input middle rest : List Token} {d : Decl} {ds : List Decl} (hd : Declaration input d middle)
      (hds : Declarations middle ds rest) : Declarations input (d :: ds) rest

end

/-- A whole program: declarations up to the end of the input. -/
inductive Program : List Token → Routine → Prop where
  | mk {input : List Token} {ds : List Decl} {last : Token} (hds : Declarations input ds [last])
      (hlast : last.kind = .endOfInput) : Program input ⟨input.length, [], ds, last.line⟩

/-! ### What a construct takes -/

/-- The tokens before `rest` are no lexical errors. -/
def Passes (input rest : List Token) : Prop := ∃ taken, input = taken ++ rest ∧ ∀ token ∈ taken,
    token.kind ≠ .error

/-- At least one token is taken, and none that is a lexical error. -/
structure Consumes (input rest : List Token) : Prop where
  passes : Passes input rest
  shorter : rest.length < input.length

theorem Passes.refl (input : List Token) : Passes input input := ⟨[], rfl, fun _ h => absurd h List.not_mem_nil⟩

theorem Passes.trans {input middle rest : List Token} (h : Passes input middle) (h' : Passes middle rest) :
    Passes input rest := by
  obtain ⟨taken, rfl, hs⟩ := h
  obtain ⟨taken', rfl, hs'⟩ := h'
  refine ⟨taken ++ taken', (List.append_assoc ..).symm, fun token hmem => ?_⟩
  rcases List.mem_append.mp hmem with hmem | hmem
  · exact hs token hmem
  · exact hs' token hmem

theorem Passes.length_le {input rest : List Token} (h : Passes input rest) : rest.length ≤ input.length := by
  obtain ⟨taken, rfl, -⟩ := h
  rw [List.length_append]
  exact Nat.le_add_left _ _

theorem Passes.cons {token : Token} {kind : Token.Kind} {input rest : List Token} (h : Passes input rest)
    (hkind : token.kind = kind) (herror : kind ≠ .error) : Consumes (token :: input) rest := by
  have hle := h.length_le
  obtain ⟨taken, rfl, hs⟩ := h
  refine ⟨⟨token :: taken, rfl, fun token' hmem => ?_⟩, Nat.lt_succ_of_le hle⟩
  rcases List.mem_cons.mp hmem with rfl | hmem
  · rw [hkind]
    exact herror
  · exact hs token' hmem

theorem Consumes.cons {token : Token} {kind : Token.Kind} {input rest : List Token} (h : Consumes input rest)
    (hkind : token.kind = kind) (herror : kind ≠ .error) : Consumes (token :: input) rest :=
  h.passes.cons hkind herror

theorem consumes_cons {token : Token} {kind : Token.Kind} {rest : List Token} (hkind : token.kind = kind)
    (herror : kind ≠ .error) : Consumes (token :: rest) rest :=
  (Passes.refl rest).cons hkind herror

theorem Consumes.trans {input middle rest : List Token} (h : Consumes input middle) (h' : Passes middle rest) :
    Consumes input rest :=
  ⟨h.passes.trans h', Nat.lt_of_le_of_lt h'.length_le h.shorter⟩

/-- After a construct, a closing token is taken. -/
theorem Consumes.close {input rest : List Token} {token : Token} {kind : Token.Kind}
    (h : Consumes input (token :: rest))
    (hkind : token.kind = kind) (herror : kind ≠ .error) : Consumes input rest :=
  h.trans (consumes_cons hkind herror).passes

/-- What is taken after the first token. -/
theorem Consumes.tail {token : Token} {input rest : List Token} (h : Consumes (token :: input) rest) :
    token.kind ≠ .error ∧ Passes input rest := by
  obtain ⟨⟨taken, heq, hs⟩, hshorter⟩ := h
  cases taken with
  | nil =>
    rw [List.nil_append] at heq
    rw [heq] at hshorter
    exact absurd hshorter (Nat.lt_irrefl _)
  | cons first taken =>
    cases heq
    exact ⟨hs token List.mem_cons_self, taken, rfl, fun token' hmem => hs token' (List.mem_cons_of_mem _ hmem)⟩

mutual

theorem Expression.consumes {level : Level} {input rest : List Token} {e : Expr} :
    Expression level input e rest → Consumes input rest
  | .assign hname hequal hvalue => (hvalue.consumes.cons hequal (by decide)).cons hname (by decide)
  | .or hleft hword hright => hleft.consumes.trans (hright.consumes.cons hword (by decide)).passes
  | .and hleft hword hright => hleft.consumes.trans (hright.consumes.cons hword (by decide)).passes
  | .binary hleft hword hright =>
    hleft.consumes.trans (hright.consumes.cons rfl (BinaryOp.kind_ne_error hword)).passes
  | .unary hword hoperand => hoperand.consumes.cons rfl (UnaryOp.kind_ne_error hword)
  | .bareCall hcallee hopen hclose =>
    hcallee.consumes.trans ((consumes_cons hclose (by decide)).cons hopen (by decide)).passes
  | .call hcallee hopen harguments hclose =>
    hcallee.consumes.trans ((harguments.consumes.close hclose (by decide)).cons hopen (by decide)).passes
  | .literal htoken => consumes_cons rfl (Literal.kind_ne_error htoken)
  | .mention hname => consumes_cons hname (by decide)
  | .group hopen hinner hclose => (hinner.consumes.close hclose (by decide)).cons hopen (by decide)
  | .tighter _ h => h.consumes

theorem Arguments.consumes {input rest : List Token} {es : List Expr} :
    Arguments input es rest → Consumes input rest
  | .one h => h.consumes
  | .more h hcomma hs => h.consumes.trans (hs.consumes.cons hcomma (by decide)).passes

end

theorem VariableDecl.consumes {input rest : List Token} {v : Variable} :
    VariableDecl input v rest → Consumes input rest
  | .bare hname hsemicolon => (consumes_cons hsemicolon (by decide)).cons hname (by decide)
  | .initial hname hequal he hsemicolon =>
    ((he.consumes.close hsemicolon (by decide)).cons hequal (by decide)).cons hname (by decide)

theorem First.consumes {input rest : List Token} {i : Initializer} : First input i rest → Consumes input rest
  | .empty hsemicolon => consumes_cons hsemicolon (by decide)
  | .var hword hv => hv.consumes.cons hword (by decide)
  | .expression he hsemicolon => he.consumes.close hsemicolon (by decide)

theorem Second.consumes {input rest : List Token} {condition : Option Expr} {line : UInt32} :
    Second input condition line rest → Consumes input rest
  | .empty hsemicolon => consumes_cons hsemicolon (by decide)
  | .expression he hsemicolon => he.consumes.close hsemicolon (by decide)

theorem Third.consumes {input rest : List Token} {increment : Option (Expr × UInt32)} :
    Third input increment rest → Consumes input rest
  | .empty hclose => consumes_cons hclose (by decide)
  | .expression he hclose => he.consumes.close hclose (by decide)

theorem Parameters.consumes {input rest : List Token} {names : List String} :
    Parameters input names rest → Consumes input rest
  | .one hname => consumes_cons hname (by decide)
  | .more hname hcomma h => (h.consumes.cons hcomma (by decide)).cons hname (by decide)

theorem Signature.consumes {input rest : List Token} {names : List String} :
    Signature input names rest → Consumes input rest
  | .bare hopen hclose => (consumes_cons hclose (by decide)).cons hopen (by decide)
  | .named hopen h hclose => (h.consumes.close hclose (by decide)).cons hopen (by decide)

mutual

theorem Statement.consumes {input rest : List Token} {s : Stmt} : Statement input s rest → Consumes input rest
  | .print hword he hsemicolon => (he.consumes.close hsemicolon (by decide)).cons hword (by decide)
  | .expression he hsemicolon => he.consumes.close hsemicolon (by decide)
  | .bareReturn hword hsemicolon => (consumes_cons hsemicolon (by decide)).cons hword (by decide)
  | .ret hword he hsemicolon => (he.consumes.close hsemicolon (by decide)).cons hword (by decide)
  | .ifThen hword hopen he hclose hs _ =>
    ((he.consumes.close hclose (by decide)).trans hs.consumes.passes).cons hopen (by decide) |>.cons hword
      (by decide)
  | .ifElse hword hopen he hclose hs hother ht =>
    ((he.consumes.close hclose (by decide)).trans (hs.consumes.passes.trans
      (ht.consumes.cons hother (by decide)).passes)).cons hopen (by decide) |>.cons hword (by decide)
  | .whileLoop hword hopen he hclose hs =>
    ((he.consumes.close hclose (by decide)).trans hs.consumes.passes).cons hopen (by decide) |>.cons hword
      (by decide)
  | .forLoop hword hopen hfirst hsecond hthird hs =>
    (hfirst.consumes.trans (hsecond.consumes.passes.trans
        (hthird.consumes.passes.trans hs.consumes.passes))).cons
      hopen (by decide) |>.cons hword (by decide)
  | .block hopen hds hclose =>
    (hds.passes.trans (consumes_cons hclose (by decide)).passes).cons hopen (by decide)

theorem Declaration.consumes {input rest : List Token} {d : Decl} :
    Declaration input d rest → Consumes input rest
  | .var hword hv => hv.consumes.cons hword (by decide)
  | .function hword hname hparameters hopen hds hclose =>
    (hparameters.consumes.trans ((hds.passes.trans (consumes_cons hclose (by decide)).passes).cons hopen
      (by decide)).passes).cons hname (by decide) |>.cons hword (by decide)
  | .statement hs => hs.consumes

theorem Declarations.passes {input rest : List Token} {ds : List Decl} : Declarations input ds rest →
    Passes input rest
  | .none => Passes.refl _
  | .more hd hds => hd.consumes.passes.trans hds.passes

end

end Grammar

end Lox
