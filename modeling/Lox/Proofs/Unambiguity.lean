import Lox.Proofs.Compilation.Program

/-! # Programs have one tree

Reading by precedence never has a choice: the token at hand tells which construct it begins, and the one after
a construct tells that it ends. So the tokens of a program have one tree. -/

namespace Lox

open Compiler

/-! ### Expressions -/

namespace Precedence

theorem Arguments.starts_cons {token : Token} {input rest : List Token} {es : List Expr}
    (h : Arguments (token :: input) es rest) : Compiler.startsExpression token.kind = true := by
  cases h with
  | one h | more h => exact (expression_iff.mp h).1.starts_cons

/-- The next token is no comma. -/
def NoComma (rest : List Token) : Prop := ∀ token ∈ rest.head?, token.kind ≠ .comma

theorem noComma_cons {token : Token} {kind : Token.Kind} {rest : List Token} (h : token.kind = kind)
    (hkind : kind ≠ .comma) : NoComma (token :: rest) := by
  rintro _ ⟨⟩
  rw [h]
  exact hkind

/-- An operator that is read is tighter than the context, so nothing stops before it. -/
theorem Operators.applies {level : Level} {left e : Expr} {word : Token} {input rest : List Token}
    {kind : Token.Kind} (h : Operators level left (word :: input) e rest) (hword : word.kind = kind)
    (hlevel : level.rank ≤ (Level.ofKind kind).rank) :
    ∃ larger middle, Applies left word input larger middle ∧ Operators level larger middle e rest := by
  rcases operators_iff.mp h with ⟨hstop, -⟩ | ⟨_, _, larger, middle, heq, -, happlies, hrest⟩
  · have hlt := hstop word rfl
    rw [hword] at hlt
    exact absurd hlevel (Nat.not_le_of_lt hlt)
  · cases heq
    exact ⟨larger, middle, happlies, hrest⟩

mutual

theorem Expression.unique {level : Level} {input rest rest' : List Token} {e e' : Expr} :
    Expression level input e rest → Expression level input e' rest' → e = e' ∧ rest = rest'
  | .mk hfirst hrest _, .mk hfirst' hrest' _ => by
    obtain ⟨rfl, rfl⟩ := hfirst.unique hfirst'
    exact hrest.unique hrest'
termination_by structural h => h

theorem Operand.unique {assignable : Bool} {token : Token} {input rest rest' : List Token} {e e' : Expr} :
    Operand assignable token input e rest → Operand assignable token input e' rest' → e = e' ∧ rest = rest'
  | .literal htoken, h => ((operand_literal_iff htoken).mp h).imp Eq.symm Eq.symm
  | .mention hname hnext, h => by
    rcases (operand_identifier_iff hname).mp h with ⟨-, rfl, rfl⟩ |
      ⟨hassignable, equal, middle, value, rfl, hequal, -, -⟩
    · exact ⟨rfl, rfl⟩
    · exact absurd hequal (hnext hassignable equal rfl)
  | .assign hname hequal hvalue, h => by
    rcases (operand_identifier_iff hname).mp h with ⟨hnext, -, -⟩ | ⟨-, _, _, value, heq, -, hvalue', rfl⟩
    · exact absurd hequal (hnext rfl _ rfl)
    · cases heq
      obtain ⟨rfl, rfl⟩ := hvalue.unique hvalue'
      exact ⟨rfl, rfl⟩
  | .group hopen hinner hclose, h => by
    obtain ⟨inner, right, rfl, hinner', -⟩ := (operand_group_iff hopen).mp h
    obtain ⟨rfl, heq⟩ := hinner.unique hinner'
    cases heq
    exact ⟨rfl, rfl⟩
  | .unary hword hoperand, h => by
    obtain ⟨inner, rfl, hoperand'⟩ := (operand_unary_iff hword).mp h
    obtain ⟨rfl, rfl⟩ := hoperand.unique hoperand'
    exact ⟨rfl, rfl⟩
termination_by structural h => h

theorem Operators.unique {level : Level} {left e e' : Expr} {input rest rest' : List Token} :
    Operators level left input e rest → Operators level left input e' rest' → e = e' ∧ rest = rest'
  | .stop hstop, h => by
    rcases operators_iff.mp h with ⟨-, rfl, rfl⟩ | ⟨word, input, larger, middle, rfl, hlevel, -⟩
    · exact ⟨rfl, rfl⟩
    · exact absurd hlevel (Nat.not_le_of_lt (hstop word rfl))
  | .or hword hlevel hright hrest, h => by
    obtain ⟨_, middle, happlies, hrest'⟩ := h.applies hword hlevel
    obtain ⟨right, rfl, hright'⟩ := (applies_or_iff hword).mp happlies
    obtain ⟨rfl, rfl⟩ := hright.unique hright'
    exact hrest.unique hrest'
  | .and hword hlevel hright hrest, h => by
    obtain ⟨_, middle, happlies, hrest'⟩ := h.applies hword hlevel
    obtain ⟨right, rfl, hright'⟩ := (applies_and_iff hword).mp happlies
    obtain ⟨rfl, rfl⟩ := hright.unique hright'
    exact hrest.unique hrest'
  | .binary hword hlevel hright hrest, h => by
    obtain ⟨_, middle, happlies, hrest'⟩ := h.applies rfl (by rwa [BinaryOp.ofKind_of_ofKind? hword])
    obtain ⟨right, rfl, hright'⟩ := (applies_binary_iff hword).mp happlies
    obtain ⟨rfl, rfl⟩ := hright.unique hright'
    exact hrest.unique hrest'
  | .bareCall hword hlevel hclose hrest, h => by
    obtain ⟨_, middle, happlies, hrest'⟩ := h.applies hword hlevel
    rcases (applies_call_iff hword).mp happlies with ⟨close, heq, -, rfl⟩ | ⟨es, close, harguments, -, -⟩
    · cases heq
      exact hrest.unique hrest'
    · have hstarts := harguments.starts_cons
      rw [hclose] at hstarts
      cases hstarts
  | .call hword hlevel harguments hclose hrest, h => by
    obtain ⟨_, middle, happlies, hrest'⟩ := h.applies hword hlevel
    rcases (applies_call_iff hword).mp happlies with ⟨close, rfl, hclose', -⟩ |
      ⟨es, close, harguments', hclose', rfl⟩
    · have hstarts := harguments.starts_cons
      rw [hclose'] at hstarts
      cases hstarts
    · obtain ⟨rfl, heq⟩ := harguments.unique (noComma_cons hclose (by decide))
        (noComma_cons hclose' (by decide)) harguments'
      cases heq
      exact hrest.unique hrest'
termination_by structural h => h

theorem Arguments.unique {input rest rest' : List Token} {es es' : List Expr} (hend : NoComma rest)
    (hend' : NoComma rest') :
    Arguments input es rest → Arguments input es' rest' → es = es' ∧ rest = rest'
  | .one h, .one h' => by
    obtain ⟨rfl, rfl⟩ := h.unique h'
    exact ⟨rfl, rfl⟩
  | .one h, .more h' hcomma _ => by
    obtain ⟨-, rfl⟩ := h.unique h'
    exact absurd hcomma (hend _ rfl)
  | .more h hcomma _, .one h' => by
    obtain ⟨-, rfl⟩ := h.unique h'
    exact absurd hcomma (hend' _ rfl)
  | .more h _ hs, .more h' _ hs' => by
    obtain ⟨rfl, heq⟩ := h.unique h'
    cases heq
    obtain ⟨rfl, rfl⟩ := hs.unique hend hend' hs'
    exact ⟨rfl, rfl⟩
termination_by structural h => h

end

end Precedence

/-! ### Clauses -/

namespace Grammar

open Precedence

variable {input rest rest' : List Token}

/-- An expression before a token that closes it. -/
theorem Expression.unique {e e' : Expr} {token token' : Token} {kind : Token.Kind}
    (h : Expression .assignment input e (token :: rest)) (hkind : token.kind = kind)
    (h' : Expression .assignment input e' (token' :: rest')) (hkind' : token'.kind = kind)
    (hcloses : Level.ofKind kind = .none ∧ kind ≠ .equal) : e = e' ∧ token = token' ∧ rest = rest' := by
  have hread := expression_iff.mpr ⟨h, closed_cons hkind hcloses⟩
  have hread' := expression_iff.mpr ⟨h', closed_cons hkind' hcloses⟩
  obtain ⟨rfl, heq⟩ := hread.unique hread'
  cases heq
  exact ⟨rfl, rfl, rfl⟩

theorem VariableDecl.unique {v v' : Variable} (h : VariableDecl input v rest)
    (h' : VariableDecl input v' rest') :
    v = v' ∧ rest = rest' := by
  cases h with
  | bare hname hsemicolon =>
    cases h' with
    | bare => exact ⟨rfl, rfl⟩
    | initial _ hequal => simp [hsemicolon] at hequal
  | initial hname hequal he hsemicolon =>
    cases h' with
    | bare _ hsemicolon' => simp [hequal] at hsemicolon'
    | initial _ _ he' hsemicolon' =>
      obtain ⟨rfl, rfl, rfl⟩ := he.unique hsemicolon he' hsemicolon' (by decide)
      exact ⟨rfl, rfl⟩

theorem First.unique {i i' : Initializer} (h : First input i rest) (h' : First input i' rest') :
    i = i' ∧ rest = rest' := by
  cases h with
  | empty hsemicolon =>
    cases h' with
    | empty => exact ⟨rfl, rfl⟩
    | var hword => simp [hsemicolon] at hword
    | expression he => exact absurd he.starts_cons (by rw [hsemicolon]; decide)
  | var hword hv =>
    cases h' with
    | empty hsemicolon => simp [hword] at hsemicolon
    | var _ hv' =>
      obtain ⟨rfl, rfl⟩ := hv.unique hv'
      exact ⟨rfl, rfl⟩
    | expression he => exact absurd he.starts_cons (by rw [hword]; decide)
  | expression he hsemicolon =>
    cases h' with
    | empty hsemicolon' => exact absurd he.starts_cons (by rw [hsemicolon']; decide)
    | var hword => exact absurd he.starts_cons (by rw [hword]; decide)
    | expression he' hsemicolon' =>
      obtain ⟨rfl, rfl, rfl⟩ := he.unique hsemicolon he' hsemicolon' (by decide)
      exact ⟨rfl, rfl⟩

theorem Second.unique {condition condition' : Option Expr} {line line' : UInt32}
    (h : Second input condition line rest)
    (h' : Second input condition' line' rest') : condition = condition' ∧ line = line' ∧ rest = rest' := by
  cases h with
  | empty hsemicolon =>
    cases h' with
    | empty => exact ⟨rfl, rfl, rfl⟩
    | expression he => exact absurd he.starts_cons (by rw [hsemicolon]; decide)
  | expression he hsemicolon =>
    cases h' with
    | empty hsemicolon' => exact absurd he.starts_cons (by rw [hsemicolon']; decide)
    | expression he' hsemicolon' =>
      obtain ⟨rfl, rfl, rfl⟩ := he.unique hsemicolon he' hsemicolon' (by decide)
      exact ⟨rfl, rfl, rfl⟩

theorem Third.unique {increment increment' : Option (Expr × UInt32)} (h : Third input increment rest)
    (h' : Third input increment' rest') : increment = increment' ∧ rest = rest' := by
  cases h with
  | empty hclose =>
    cases h' with
    | empty => exact ⟨rfl, rfl⟩
    | expression he => exact absurd he.starts_cons (by rw [hclose]; decide)
  | expression he hclose =>
    cases h' with
    | empty hclose' => exact absurd he.starts_cons (by rw [hclose']; decide)
    | expression he' hclose' =>
      obtain ⟨rfl, rfl, rfl⟩ := he.unique hclose he' hclose' (by decide)
      exact ⟨rfl, rfl⟩

theorem Parameters.unique {names names' : List String} (hend : NoComma rest) (hend' : NoComma rest')
    (h : Parameters input names rest) (h' : Parameters input names' rest') : names = names' ∧ rest = rest' := by
  induction h generalizing names' with
  | one =>
    cases h' with
    | one => exact ⟨rfl, rfl⟩
    | more _ hcomma => exact absurd hcomma (hend _ rfl)
  | more _ hcomma _ ih =>
    cases h' with
    | one => exact absurd hcomma (hend' _ rfl)
    | more _ _ h' =>
      obtain ⟨rfl, rfl⟩ := ih hend h'
      exact ⟨rfl, rfl⟩

theorem Signature.unique {names names' : List String} (h : Signature input names rest)
    (h' : Signature input names' rest') :
    names = names' ∧ rest = rest' := by
  have hname {token : Token} {tokens rest : List Token} {names : List String}
      (h : Parameters (token :: tokens) names rest) :
      token.kind = .identifier := by
    cases h with
    | one hname | more hname => exact hname
  cases h with
  | bare _ hclose =>
    cases h' with
    | bare => exact ⟨rfl, rfl⟩
    | named _ h' => simp [hname h'] at hclose
  | named _ h hclose =>
    cases h' with
    | bare _ hclose' => simp [hname h] at hclose'
    | named _ h' hclose' =>
      obtain ⟨rfl, heq⟩ := h.unique (noComma_cons hclose (by decide)) (noComma_cons hclose' (by decide)) h'
      cases heq
      exact ⟨rfl, rfl⟩

/-! ### Statements and declarations -/

/-- The next token begins no declaration. -/
def Halts (rest : List Token) : Prop := ∀ token ∈ rest.head?, startsDeclaration token.kind = false

theorem halts_cons {token : Token} {kind : Token.Kind} {rest : List Token} (h : token.kind = kind)
    (hkind : startsDeclaration kind = false) : Halts (token :: rest) := by
  rintro _ ⟨⟩
  rw [h]
  exact hkind

theorem Declaration.starts {d : Decl} (h : Declaration input d rest) :
    ∃ token tail, input = token :: tail ∧ startsDeclaration token.kind = true := by
  cases input with
  | nil => exact absurd h.consumes.shorter (Nat.not_lt_zero _)
  | cons token tail => exact ⟨token, tail, rfl, h.starts_cons⟩

mutual

theorem Statement.unique {input rest rest' : List Token} {s s' : Stmt} :
    Statement input s rest → Statement input s' rest' → s = s' ∧ rest = rest'
  | .print hword he hsemicolon, h => by
    obtain ⟨e, semicolon, rfl, he', hsemicolon'⟩ := (statement_print_iff hword).mp h
    obtain ⟨rfl, rfl, rfl⟩ := he.unique hsemicolon he' hsemicolon' (by decide)
    exact ⟨rfl, rfl⟩
  | .expression he hsemicolon, h => by
    obtain ⟨token, tail, rfl, hstarts⟩ := he.starts
    obtain ⟨e, semicolon, rfl, he', hsemicolon'⟩ := (statement_expression_iff hstarts).mp h
    obtain ⟨rfl, rfl, rfl⟩ := he.unique hsemicolon he' hsemicolon' (by decide)
    exact ⟨rfl, rfl⟩
  | .bareReturn hword hsemicolon, h => by
    rcases (statement_return_iff hword).mp h with ⟨semicolon, heq, -, rfl⟩ | ⟨e, semicolon, -, he, -⟩
    · cases heq
      exact ⟨rfl, rfl⟩
    · exact absurd he.starts_cons (by rw [hsemicolon]; decide)
  | .ret hword he hsemicolon, h => by
    rcases (statement_return_iff hword).mp h with ⟨semicolon, rfl, hsemicolon', -⟩ |
      ⟨e, semicolon, rfl, he', hsemicolon'⟩
    · exact absurd he.starts_cons (by rw [hsemicolon']; decide)
    · obtain ⟨rfl, rfl, rfl⟩ := he.unique hsemicolon he' hsemicolon' (by decide)
      exact ⟨rfl, rfl⟩
  | .ifThen hword hopen he hclose hs helse, h => by
    obtain ⟨_, _, e, right, middle, thenPart, last, heq, -, he', hclose', hs', hrest⟩ :=
      (statement_if_iff hword).mp h
    cases heq
    obtain ⟨rfl, rfl, rfl⟩ := he.unique hclose he' hclose' (by decide)
    obtain ⟨rfl, rfl⟩ := hs.unique hs'
    rcases hrest with ⟨-, rfl, rfl⟩ | ⟨other, next, elsePart, rfl, hother, -, -⟩
    · exact ⟨rfl, rfl⟩
    · exact absurd hother (helse other rfl)
  | .ifElse hword hopen he hclose hs hother ht, h => by
    obtain ⟨_, _, e, right, middle, thenPart, last, heq, -, he', hclose', hs', hrest⟩ :=
      (statement_if_iff hword).mp h
    cases heq
    obtain ⟨rfl, rfl, rfl⟩ := he.unique hclose he' hclose' (by decide)
    obtain ⟨rfl, rfl⟩ := hs.unique hs'
    rcases hrest with ⟨helse, -, -⟩ | ⟨_, _, elsePart, heq, -, ht', rfl⟩
    · exact absurd hother (helse _ rfl)
    · cases heq
      obtain ⟨rfl, rfl⟩ := ht.unique ht'
      exact ⟨rfl, rfl⟩
  | .whileLoop hword hopen he hclose hs, h => by
    obtain ⟨_, _, e, right, middle, body, heq, -, he', hclose', hs', rfl⟩ := (statement_while_iff hword).mp h
    cases heq
    obtain ⟨rfl, rfl, rfl⟩ := he.unique hclose he' hclose' (by decide)
    obtain ⟨rfl, rfl⟩ := hs.unique hs'
    exact ⟨rfl, rfl⟩
  | .forLoop hword hopen hfirst hsecond hthird hs, h => by
    obtain ⟨_, _, i, second, third, last, condition, l, increment, body, heq, -, hfirst', hsecond', hthird',
        hs', rfl⟩ :=
      (statement_for_iff hword).mp h
    cases heq
    obtain ⟨rfl, rfl⟩ := hfirst.unique hfirst'
    obtain ⟨rfl, rfl, rfl⟩ := hsecond.unique hsecond'
    obtain ⟨rfl, rfl⟩ := hthird.unique hthird'
    obtain ⟨rfl, rfl⟩ := hs.unique hs'
    exact ⟨rfl, rfl⟩
  | .block hopen hds hclose, h => by
    obtain ⟨ds, brace, hds', hclose', rfl⟩ := (statement_block_iff hopen).mp h
    obtain ⟨rfl, heq⟩ := hds.unique (halts_cons hclose rfl) (halts_cons hclose' rfl) hds'
    cases heq
    exact ⟨rfl, rfl⟩
termination_by structural h => h

theorem Declaration.unique {input rest rest' : List Token} {d d' : Decl} : Declaration input d rest →
    Declaration input d' rest' → d = d' ∧ rest = rest'
  | .var hword hv, h => by
    obtain ⟨v, hv', rfl⟩ := (declaration_var_iff hword).mp h
    obtain ⟨rfl, rfl⟩ := hv.unique hv'
    exact ⟨rfl, rfl⟩
  | .function hword hname hparameters hopen hds hclose, h => by
    obtain ⟨_, _, ⟨⟨names, left, body⟩, ds, brace, last⟩, heq, -, hparameters', -, hds', hclose', rfl, rfl⟩ :=
      (declaration_function_iff hword).mp h
    obtain ⟨rfl, rfl⟩ := List.cons.inj heq
    obtain ⟨rfl, heq⟩ := hparameters.unique hparameters'
    obtain ⟨rfl, rfl⟩ := List.cons.inj heq
    obtain ⟨rfl, heq⟩ := hds.unique (halts_cons hclose rfl) (halts_cons hclose' rfl) hds'
    cases heq
    exact ⟨rfl, rfl⟩
  | .statement hs, h => by
    obtain ⟨token, tail, heq, hstarts⟩ := hs.starts
    have hfun : token.kind ≠ .funWord := fun hkind => by
      rw [hkind] at hstarts
      cases hstarts
    have hvar : token.kind ≠ .varWord := fun hkind => by
      rw [hkind] at hstarts
      cases hstarts
    obtain ⟨s, hs', rfl⟩ := (declaration_statement_iff hfun hvar).mp (heq ▸ h)
    rw [← heq] at hs'
    obtain ⟨rfl, rfl⟩ := hs.unique hs'
    exact ⟨rfl, rfl⟩
termination_by structural h => h

theorem Declarations.unique {input rest rest' : List Token} {ds ds' : List Decl} (hend : Halts rest)
    (hend' : Halts rest') :
    Declarations input ds rest → Declarations input ds' rest' → ds = ds' ∧ rest = rest'
  | .none, .none => ⟨rfl, rfl⟩
  | .none, .more hd _ => by
    obtain ⟨token, tail, rfl, hstarts⟩ := hd.starts
    rw [hend token rfl] at hstarts
    cases hstarts
  | .more hd _, .none => by
    obtain ⟨token, tail, rfl, hstarts⟩ := hd.starts
    rw [hend' token rfl] at hstarts
    cases hstarts
  | .more hd hds, .more hd' hds' => by
    obtain ⟨rfl, rfl⟩ := hd.unique hd'
    obtain ⟨rfl, rfl⟩ := hds.unique hend hend' hds'
    exact ⟨rfl, rfl⟩
termination_by structural h => h

end

/-- The tokens of a program have one tree. -/
theorem Program.unique {tokens : List Token} {r r' : Routine} (h : Program tokens r)
    (h' : Program tokens r') : r = r' := by
  obtain ⟨ds, last, hds, hlast, rfl⟩ := program_iff.mp h
  obtain ⟨ds', last', hds', hlast', rfl⟩ := program_iff.mp h'
  obtain ⟨rfl, heq⟩ := hds.unique (halts_cons hlast rfl) (halts_cons hlast' rfl) hds'
  cases heq
  rfl

end Grammar

end Lox
