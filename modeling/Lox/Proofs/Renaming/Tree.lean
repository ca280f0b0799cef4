import Lox.Proofs.Code
import Lox.Proofs.Grammar

/-! # Names spelled differently

Tokens and trees with their names spelled differently. The grammar does not look at spellings, so a derivation
stays one; and the lines and the sizes of code do not depend on them. -/

namespace Lox

section

variable (word : String → String)

/-- A token with its text spelled differently, if it is an identifier. -/
def Token.respell (token : Token) : Token :=
  { token with lexeme := if token.kind = .identifier then word token.lexeme else token.lexeme }

mutual

/-- An expression with its names spelled differently. -/
def Expr.respell : Expr → Expr
  | .literal value line => .literal value line
  | .mention name line => .mention (word name) line
  | .assign name value => .assign (word name) value.respell
  | .group inner line => .group inner.respell line
  | .unary op operand => .unary op operand.respell
  | .binary op left right => .binary op left.respell right.respell
  | .and left line right => .and left.respell line right.respell
  | .or left line right => .or left.respell line right.respell
  | .call callee arguments line => .call callee.respell (Expr.respellAll arguments) line

/-- Expressions with their names spelled differently. -/
def Expr.respellAll : List Expr → List Expr
  | [] => []
  | e :: es => e.respell :: Expr.respellAll es

end

/-- The declaration of a variable with its names spelled differently. -/
def Variable.respell (v : Variable) : Variable :=
  { v with name := word v.name, value := v.value.map (Expr.respell word) }

/-- The first clause of a `for` statement with its names spelled differently. -/
def Initializer.respell : Initializer → Initializer
  | .empty => .empty
  | .var v => .var (v.respell word)
  | .expression value line => .expression (value.respell word) line

mutual

/-- A statement with its names spelled differently. -/
def Stmt.respell : Stmt → Stmt
  | .print value line => .print (value.respell word) line
  | .expression value line => .expression (value.respell word) line
  | .ret value line => .ret (value.map (Expr.respell word)) line
  | .ifElse condition line thenPart none => .ifElse (condition.respell word) line thenPart.respell none
  | .ifElse condition line thenPart (some elsePart) =>
    .ifElse (condition.respell word) line thenPart.respell (some elsePart.respell)
  | .whileLoop condition line body => .whileLoop (condition.respell word) line body.respell
  | .forLoop initializer condition line increment body =>
    .forLoop (initializer.respell word) (condition.map (Expr.respell word)) line
      (increment.map fun clause => (clause.1.respell word, clause.2)) body.respell
  | .block declarations line => .block (Decl.respellAll declarations) line

/-- A declaration with its names spelled differently. -/
def Decl.respell : Decl → Decl
  | .var v => .var (v.respell word)
  | .function name routine => .function (word name) routine.respell
  | .statement s => .statement s.respell

/-- Declarations with their names spelled differently. -/
def Decl.respellAll : List Decl → List Decl
  | [] => []
  | d :: ds => d.respell :: Decl.respellAll ds

/-- A routine with its names spelled differently. -/
def Routine.respell : Routine → Routine
  | ⟨place, parameters, body, line⟩ => ⟨place, parameters.map word, Decl.respellAll body, line⟩

end

end

/-! ### Tokens -/

namespace Token

variable (word : String → String) {token : Token} {kind : Kind}

theorem kind_respell (h : token.kind = kind) : (token.respell word).kind = kind := h

theorem lexeme_respell (h : token.kind = .identifier) : (token.respell word).lexeme = word token.lexeme :=
  if_pos h

theorem respell_of_ne (h : token.kind ≠ .identifier) : token.respell word = token := by
  rw [respell, if_neg h]

end Token

theorem Literal.ofToken?_respell (word : String → String) (token : Token) :
    Literal.ofToken? (token.respell word) = Literal.ofToken? token := by
  by_cases h : token.kind = .identifier
  · simp only [Literal.ofToken?, h, Token.kind_respell word h]
  · rw [Token.respell_of_ne word h]

/-! ### Derivations -/

namespace Grammar

section

variable (word : String → String) {input rest : List Token}

-- Some of the derivations are given without their type: only their parts tell that the tokens are
-- spelled differently.
mutual

theorem Expression.respell {level : Level} {input rest : List Token} {e : Expr} :
    Expression level input e rest →
    Expression level (input.map (Token.respell word)) (e.respell word) (rest.map (Token.respell word))
  | .assign hname hequal hvalue => by
    rw [Expr.respell, ← Token.lexeme_respell word hname]
    exact .assign hname hequal hvalue.respell
  | .or hleft hword hright => (Expression.or hleft.respell hword hright.respell :)
  | .and hleft hword hright => (Expression.and hleft.respell hword hright.respell :)
  | .binary hleft hword hright => (Expression.binary hleft.respell hword hright.respell :)
  | .unary hword hoperand => .unary hword hoperand.respell
  | .bareCall hcallee hopen hclose => (Expression.bareCall hcallee.respell hopen hclose :)
  | .call hcallee hopen harguments hclose => (Expression.call hcallee.respell hopen harguments.respell hclose :)
  | .literal htoken => .literal ((Literal.ofToken?_respell word _).trans htoken)
  | .mention hname => by
    rw [Expr.respell, ← Token.lexeme_respell word hname]
    exact .mention hname
  | .group hopen hinner hclose => (Expression.group (Token.kind_respell word hopen) hinner.respell hclose :)
  | .tighter hlevel h => .tighter hlevel h.respell

theorem Arguments.respell {input rest : List Token} {es : List Expr} : Arguments input es rest →
    Arguments (input.map (Token.respell word)) (Expr.respellAll word es) (rest.map (Token.respell word))
  | .one h => .one h.respell
  | .more h hcomma hs => (Arguments.more h.respell hcomma hs.respell :)

end

theorem VariableDecl.respell {v : Variable} : VariableDecl input v rest →
    VariableDecl (input.map (Token.respell word)) (v.respell word) (rest.map (Token.respell word))
  | .bare hname hsemicolon => by
    rw [Variable.respell, ← Token.lexeme_respell word hname]
    exact (VariableDecl.bare (Token.kind_respell word hname) (Token.kind_respell word hsemicolon) :)
  | .initial hname hequal he hsemicolon => by
    rw [Variable.respell, ← Token.lexeme_respell word hname]
    exact (VariableDecl.initial (Token.kind_respell word hname) (Token.kind_respell word hequal)
        (he.respell word)
      hsemicolon :)

theorem First.respell {i : Initializer} : First input i rest →
    First (input.map (Token.respell word)) (i.respell word) (rest.map (Token.respell word))
  | .empty hsemicolon => .empty hsemicolon
  | .var hword hv => .var hword (hv.respell word)
  | .expression he hsemicolon => (First.expression (he.respell word) hsemicolon :)

theorem Second.respell {condition : Option Expr} {line : UInt32} : Second input condition line rest →
    Second (input.map (Token.respell word)) (condition.map (Expr.respell word)) line
      (rest.map (Token.respell word))
  | .empty hsemicolon => (Second.empty (Token.kind_respell word hsemicolon) :)
  | .expression he hsemicolon => (Second.expression (he.respell word) hsemicolon :)

theorem Third.respell {increment : Option (Expr × UInt32)} : Third input increment rest →
    Third (input.map (Token.respell word)) (increment.map fun clause => (clause.1.respell word, clause.2))
      (rest.map (Token.respell word))
  | .empty hclose => .empty hclose
  | .expression he hclose => (Third.expression (he.respell word) hclose :)

theorem Parameters.respell {input rest : List Token} {names : List String} : Parameters input names rest →
    Parameters (input.map (Token.respell word)) (names.map word) (rest.map (Token.respell word))
  | .one hname => by
    rw [List.map_singleton, ← Token.lexeme_respell word hname]
    exact .one hname
  | .more hname hcomma h => by
    rw [List.map_cons (f := word), ← Token.lexeme_respell word hname]
    exact .more hname hcomma h.respell

theorem Signature.respell {names : List String} : Signature input names rest →
    Signature (input.map (Token.respell word)) (names.map word) (rest.map (Token.respell word))
  | .bare hopen hclose => .bare hopen hclose
  | .named hopen h hclose => .named hopen (h.respell word) hclose

mutual

theorem Statement.respell {input rest : List Token} {s : Stmt} : Statement input s rest →
    Statement (input.map (Token.respell word)) (s.respell word) (rest.map (Token.respell word))
  | .print hword he hsemicolon =>
    (Statement.print (Token.kind_respell word hword) (he.respell word) hsemicolon :)
  | .expression he hsemicolon => (Statement.expression (he.respell word) hsemicolon :)
  | .bareReturn hword hsemicolon =>
    (Statement.bareReturn (Token.kind_respell word hword) (Token.kind_respell word hsemicolon) :)
  | .ret hword he hsemicolon => (Statement.ret (Token.kind_respell word hword) (he.respell word) hsemicolon :)
  | .ifThen hword hopen he hclose hs helse =>
    (Statement.ifThen (Token.kind_respell word hword) (Token.kind_respell word hopen)
        (he.respell word) hclose hs.respell
      (by
        intro token htoken
        rw [List.head?_map] at htoken
        obtain ⟨other, hother, rfl⟩ := Option.map_eq_some_iff.mp htoken
        exact helse other hother) :)
  | .ifElse hword hopen he hclose hs hother ht =>
    (Statement.ifElse (Token.kind_respell word hword) (Token.kind_respell word hopen)
        (he.respell word) hclose hs.respell
      hother ht.respell :)
  | .whileLoop hword hopen he hclose hs =>
    (Statement.whileLoop (Token.kind_respell word hword) (Token.kind_respell word hopen)
        (he.respell word) hclose
      hs.respell :)
  | .forLoop hword hopen hfirst hsecond hthird hs =>
    (Statement.forLoop (Token.kind_respell word hword) (Token.kind_respell word hopen) (hfirst.respell word)
      (hsecond.respell word) (hthird.respell word) hs.respell :)
  | .block hopen hds hclose => (Statement.block (Token.kind_respell word hopen) hds.respell hclose :)

theorem Declaration.respell {input rest : List Token} {d : Decl} : Declaration input d rest →
    Declaration (input.map (Token.respell word)) (d.respell word) (rest.map (Token.respell word))
  | .var hword hv => .var hword (hv.respell word)
  | .function hword hname hparameters hopen hds hclose => by
    rw [Decl.respell, Routine.respell, ← Token.lexeme_respell word hname,
      ← List.length_map (Token.respell word)]
    exact (Declaration.function (Token.kind_respell word hword) (Token.kind_respell word hname)
      (hparameters.respell word) hopen hds.respell hclose :)
  | .statement hs => .statement hs.respell

theorem Declarations.respell {input rest : List Token} {ds : List Decl} : Declarations input ds rest →
    Declarations (input.map (Token.respell word)) (Decl.respellAll word ds) (rest.map (Token.respell word))
  | .none => .none
  | .more hd hds => .more hd.respell hds.respell

end

theorem Program.respell {tokens : List Token} {r : Routine} (h : Program tokens r) :
    Program (tokens.map (Token.respell word)) (r.respell word) := by
  obtain ⟨hds, hlast⟩ := h
  rw [Routine.respell, List.map_nil, ← List.length_map (Token.respell word)]
  exact (Program.mk (hds.respell word) hlast :)

end

end Grammar

variable {word : String → String}

/-! ### Lines and sizes -/

namespace Expr

@[simp] theorem endLine_respell : ∀ e : Expr, (e.respell word).endLine = e.endLine
  | literal _ _ | mention _ _ | group _ _ | call _ _ _ => rfl
  | assign _ value => endLine_respell value
  | unary _ operand => endLine_respell operand
  | binary _ _ right | and _ _ right | or _ _ right => endLine_respell right

mutual

@[simp] theorem length_respell : ∀ e : Expr, (e.respell word).length = e.length
  | literal _ _ | mention _ _ => rfl
  | assign _ value => congrArg (· + 2) (length_respell value)
  | group inner _ => length_respell inner
  | unary _ operand => congrArg (· + 1) (length_respell operand)
  | binary _ left right | and left _ right | or left _ right => by
    simp only [respell, length, length_respell left, length_respell right]
  | call callee arguments _ => by
    simp only [respell, length, length_respell callee, lengths_respellAll arguments]

theorem lengths_respellAll : ∀ es : List Expr, lengths (respellAll word es) = lengths es
  | [] => rfl
  | e :: es => by
    simp only [respellAll, lengths, length_respell e, lengths_respellAll es]

end

theorem length_respellAll (es : List Expr) : (respellAll word es).length = es.length := by
  induction es with
  | nil => rfl
  | cons e es ih => rw [respellAll, List.length_cons, List.length_cons, ih]

end Expr

@[simp] theorem Variable.length_respell (isGlobal : Bool) (v : Variable) :
    (v.respell word).length isGlobal = v.length isGlobal := by
  obtain ⟨name, nameLine, value, line⟩ := v
  cases value <;> simp [respell, length, valueLength]

@[simp] theorem Initializer.length_respell (i : Initializer) : (i.respell word).length = i.length := by
  cases i <;> simp [respell, length]

@[simp] theorem Initializer.name?_respell (i : Initializer) : (i.respell word).name? = i.name?.map word := by
  cases i <;> rfl

@[simp] theorem Stmt.conditionLength_respell (condition : Option Expr) :
    conditionLength (condition.map (Expr.respell word)) = conditionLength condition := by
  cases condition <;> simp [conditionLength]

@[simp] theorem Stmt.incrementLength_respell (increment : Option (Expr × UInt32)) :
    incrementLength (increment.map fun clause => (clause.1.respell word, clause.2)) =
      incrementLength increment := by
  cases increment <;> simp [incrementLength]

@[simp] theorem Stmt.roundLength_respell (condition : Option Expr) (increment : Option (Expr × UInt32))
    (bodyLength : Nat) :
    roundLength (condition.map (Expr.respell word)) (increment.map fun clause =>
      (clause.1.respell word, clause.2)) bodyLength = roundLength condition increment bodyLength := by
  cases increment <;> simp [roundLength]

@[simp] theorem Decl.name?_respell (d : Decl) : (d.respell word).name? = d.name?.map word := by
  cases d <;> rfl

theorem Decl.names_respellAll (ds : List Decl) :
    (Decl.respellAll word ds).filterMap Decl.name? = (ds.filterMap Decl.name?).map word := by
  induction ds with
  | nil => rfl
  | cons d ds ih => cases hname : d.name? <;> simp [Decl.respellAll, hname, ih]

@[simp] theorem Stmt.endLine_respell : ∀ s : Stmt, (s.respell word).endLine = s.endLine
  | .print _ _ | .expression _ _ | .ret _ _ | .block _ _ => rfl
  | .ifElse _ _ thenPart none => thenPart.endLine_respell
  | .ifElse _ _ _ (some elsePart) => elsePart.endLine_respell
  | .whileLoop _ _ body | .forLoop _ _ _ _ body => body.endLine_respell

mutual

@[simp] theorem Stmt.length_respell : ∀ s : Stmt, (s.respell word).length = s.length
  | .print _ _ | .expression _ _ | .ret (some _) _ => by
    simp [Stmt.respell, Stmt.length]
  | .ret none _ => rfl
  | .ifElse _ _ thenPart none => by
    simp [Stmt.respell, Stmt.length, thenPart.length_respell]
  | .ifElse _ _ thenPart (some elsePart) => by
    simp [Stmt.respell, Stmt.length, thenPart.length_respell, elsePart.length_respell]
  | .whileLoop _ _ body => by
    simp [Stmt.respell, Stmt.length, body.length_respell]
  | .forLoop _ _ _ _ body => by
    simp [Stmt.respell, Stmt.length, body.length_respell]
  | .block declarations _ => by
    rw [Stmt.respell, Stmt.length, Stmt.length, Decl.lengths_respellAll false declarations,
      Decl.names_respellAll, List.length_map]

theorem Decl.length_respell (isGlobal : Bool) : ∀ d : Decl, (d.respell word).length isGlobal = d.length isGlobal
  | .var v => v.length_respell isGlobal
  | .function _ _ => rfl
  | .statement s => s.length_respell

theorem Decl.lengths_respellAll (isGlobal : Bool) : ∀ ds : List Decl,
    Decl.lengths isGlobal (Decl.respellAll word ds) = Decl.lengths isGlobal ds
  | [] => rfl
  | d :: ds => by
    rw [Decl.respellAll, Decl.lengths, Decl.lengths, d.length_respell isGlobal,
      Decl.lengths_respellAll isGlobal ds]

end

end Lox
