import Lox.Proofs.Grammar
import Lox.Proofs.Sequence.Scan
import Lox.Proofs.Sequence.Twin

/-! # Programs one after the other

What is derived from some tokens is also derived where other tokens follow in the place of the end of the
input, since the grammar looks ahead only for an `else`. Lines do not matter to the grammar. So the tokens of
two programs, one after the other, are a program, whose trees are twins of theirs. -/

namespace Lox.Grammar

/-- The same words up to the end of the input, in the place of which other tokens stand.
    Identifiers are not empty. -/
inductive Agree (tail : List Token) : List Token → List Token → Prop
  | stop {last : Token} (hlast : last.kind = .endOfInput)
      (htail : ∀ token ∈ tail.head?, token.kind ≠ .elseWord) :
    Agree tail [last] tail
  | cons {token token' : Token} {input input' : List Token} (hword : token.SameWord token')
      (h : Agree tail input input') :
    Agree tail (token :: input) (token' :: input')

variable {tail input input' rest tokens : List Token}

/-- A word other than the end of the input is the same on both sides. -/
theorem Agree.word {token : Token} {kind : Token.Kind} (h : Agree tail (token :: input) tokens)
    (hkind : token.kind = kind) (hend : kind ≠ .endOfInput) :
    ∃ token' input', tokens = token' :: input' ∧ token'.kind = kind ∧ Agree tail input input' := by
  cases h with
  | stop hlast => exact absurd (hkind.symm.trans hlast) hend
  | cons hword h => exact ⟨_, _, rfl, hword.kind.trans hkind, h⟩

/-- So is a name, which is not empty. -/
theorem Agree.name {token : Token} (h : Agree tail (token :: input) tokens) (hkind : token.kind = .identifier) :
    ∃ token' input', tokens = token' :: input' ∧ token'.kind = .identifier ∧ token'.lexeme = token.lexeme ∧
      token.lexeme ≠ "" ∧ Agree tail input input' := by
  cases h with
  | stop hlast => exact absurd (hkind.symm.trans hlast) (by decide)
  | cons hword h => exact ⟨_, _, rfl, hword.kind.trans hkind, hword.lexeme, hword.name hkind, h⟩

theorem Agree.literal {token : Token} {value : Literal} (h : Agree tail (token :: input) tokens)
    (htoken : Literal.ofToken? token = some value) :
    ∃ token' input', tokens = token' :: input' ∧ Literal.ofToken? token' = some value ∧
      Agree tail input input' := by
  cases h with
  | stop hlast => simp [Literal.ofToken?, hlast] at htoken
  | cons hword h =>
    refine ⟨_, _, rfl, ?_, h⟩
    rw [← htoken, Literal.ofToken?, Literal.ofToken?, hword.kind, hword.lexeme]

/-- An `else` that does not follow on one side does not on the other. -/
theorem Agree.noElse (h : Agree tail rest tokens) (helse : ∀ token ∈ rest.head?, token.kind ≠ .elseWord) :
    ∀ token ∈ tokens.head?, token.kind ≠ .elseWord := by
  cases h with
  | stop _ htail => exact htail
  | cons hword =>
    rintro _ ⟨⟩
    rw [hword.kind]
    exact helse _ rfl

/-! ### Expressions -/

mutual

theorem Expression.graft {level : Level} {input rest : List Token} {e : Expr} : Expression level input e rest →
    ∀ {tokens : List Token}, Agree tail input tokens →
      ∃ e' rest', Expression level tokens e' rest' ∧ Agree tail rest rest' ∧ e.Twin e'
  | .assign hname hequal hvalue, _, hagree => by
    obtain ⟨name, _, rfl, hname', hlexeme, hne, hagree⟩ := hagree.name hname
    obtain ⟨equal, _, rfl, hequal', hagree⟩ := hagree.word hequal (by decide)
    obtain ⟨value, rest', hvalue', hrest, htwin⟩ := hvalue.graft hagree
    refine ⟨_, rest', .assign hname' hequal' hvalue', hrest, ?_⟩
    rw [hlexeme]
    exact htwin.assign hne
  | .or hleft hword hright, _, hagree => by
    obtain ⟨left, _, hleft', hagree, htwin⟩ := hleft.graft hagree
    obtain ⟨word, _, rfl, hword', hagree⟩ := hagree.word hword (by decide)
    obtain ⟨right, rest', hright', hrest, htwin'⟩ := hright.graft hagree
    exact ⟨_, rest', .or hleft' hword' hright', hrest, htwin.or htwin'⟩
  | .and hleft hword hright, _, hagree => by
    obtain ⟨left, _, hleft', hagree, htwin⟩ := hleft.graft hagree
    obtain ⟨word, _, rfl, hword', hagree⟩ := hagree.word hword (by decide)
    obtain ⟨right, rest', hright', hrest, htwin'⟩ := hright.graft hagree
    exact ⟨_, rest', .and hleft' hword' hright', hrest, htwin.and htwin'⟩
  | @Expression.binary _ _ _ _ op _ _ hleft hword hright, _, hagree => by
    obtain ⟨left, _, hleft', hagree, htwin⟩ := hleft.graft hagree
    obtain ⟨word, _, rfl, hword', hagree⟩ :=
      hagree.word rfl fun hend => by simp [hend, BinaryOp.ofKind?] at hword
    obtain ⟨right, rest', hright', hrest, htwin'⟩ := hright.graft hagree
    exact ⟨_, rest', .binary hleft' (hword' ▸ hword) hright', hrest, htwin.binary op htwin'⟩
  | @Expression.unary _ _ _ op _ hword hoperand, _, hagree => by
    obtain ⟨word, _, rfl, hword', hagree⟩ :=
      hagree.word rfl fun hend => by simp [hend, UnaryOp.ofKind?] at hword
    obtain ⟨operand, rest', hoperand', hrest, htwin⟩ := hoperand.graft hagree
    exact ⟨_, rest', .unary (hword' ▸ hword) hoperand', hrest, htwin.unary op⟩
  | .bareCall hcallee hopen hclose, _, hagree => by
    obtain ⟨callee, _, hcallee', hagree, htwin⟩ := hcallee.graft hagree
    obtain ⟨left, _, rfl, hopen', hagree⟩ := hagree.word hopen (by decide)
    obtain ⟨right, rest', rfl, hclose', hrest⟩ := hagree.word hclose (by decide)
    exact ⟨_, rest', .bareCall hcallee' hopen' hclose', hrest, htwin.call .nil⟩
  | .call hcallee hopen harguments hclose, _, hagree => by
    obtain ⟨callee, _, hcallee', hagree, htwin⟩ := hcallee.graft hagree
    obtain ⟨left, _, rfl, hopen', hagree⟩ := hagree.word hopen (by decide)
    obtain ⟨arguments, _, harguments', hagree, htwins⟩ := harguments.graft hagree
    obtain ⟨right, rest', rfl, hclose', hrest⟩ := hagree.word hclose (by decide)
    exact ⟨_, rest', .call hcallee' hopen' harguments' hclose', hrest, htwin.call htwins⟩
  | .literal htoken, _, hagree => by
    obtain ⟨token, rest', rfl, htoken', hrest⟩ := hagree.literal htoken
    exact ⟨_, rest', .literal htoken', hrest, .literal _⟩
  | .mention hname, _, hagree => by
    obtain ⟨name, rest', rfl, hname', hlexeme, hne, hrest⟩ := hagree.name hname
    refine ⟨_, rest', .mention hname', hrest, ?_⟩
    rw [hlexeme]
    exact .mention hne
  | .group hopen hinner hclose, _, hagree => by
    obtain ⟨left, _, rfl, hopen', hagree⟩ := hagree.word hopen (by decide)
    obtain ⟨inner, _, hinner', hagree, htwin⟩ := hinner.graft hagree
    obtain ⟨right, rest', rfl, hclose', hrest⟩ := hagree.word hclose (by decide)
    exact ⟨_, rest', .group hopen' hinner' hclose', hrest, htwin.group⟩
  | .tighter hlevel h, _, hagree => by
    obtain ⟨e', rest', h', hrest, htwin⟩ := h.graft hagree
    exact ⟨e', rest', .tighter hlevel h', hrest, htwin⟩

theorem Arguments.graft {input rest : List Token} {es : List Expr} :
    Arguments input es rest → ∀ {tokens : List Token},
    Agree tail input tokens → ∃ es' rest', Arguments tokens es' rest' ∧ Agree tail rest rest' ∧
      Expr.Twins es es'
  | .one h, _, hagree => by
    obtain ⟨e, rest', h', hrest, htwin⟩ := h.graft hagree
    exact ⟨_, rest', .one h', hrest, .cons htwin .nil⟩
  | .more h hcomma hs, _, hagree => by
    obtain ⟨e, _, h', hagree, htwin⟩ := h.graft hagree
    obtain ⟨comma, _, rfl, hcomma', hagree⟩ := hagree.word hcomma (by decide)
    obtain ⟨es, rest', hs', hrest, htwins⟩ := hs.graft hagree
    exact ⟨_, rest', .more h' hcomma' hs', hrest, .cons htwin htwins⟩

end

/-- An expression and the word that closes it. -/
theorem Expression.graftClosed {level : Level} {e : Expr} {token : Token} {kind : Token.Kind}
    (h : Expression level input e (token :: rest)) (hkind : token.kind = kind) (hend : kind ≠ .endOfInput)
    (hagree : Agree tail input tokens) : ∃ e' token' rest', Expression level tokens e' (token' :: rest') ∧
    token'.kind = kind ∧
      Agree tail rest rest' ∧ e.Twin e' := by
  obtain ⟨e', _, h', hagree, htwin⟩ := h.graft hagree
  obtain ⟨token', rest', rfl, hkind', hrest⟩ := hagree.word hkind hend
  exact ⟨e', token', rest', h', hkind', hrest, htwin⟩

/-! ### Clauses -/

theorem VariableDecl.graft {v : Variable} (h : VariableDecl input v rest) (hagree : Agree tail input tokens) :
    ∃ v' rest', VariableDecl tokens v' rest' ∧ Agree tail rest rest' ∧ v.Twin v' := by
  cases h with
  | bare hname hsemicolon =>
    obtain ⟨name, _, rfl, hname', hlexeme, -, hagree⟩ := hagree.name hname
    obtain ⟨semicolon, rest', rfl, hsemicolon', hrest⟩ := hagree.word hsemicolon (by decide)
    refine ⟨_, rest', .bare hname' hsemicolon', hrest, ?_⟩
    rw [hlexeme]
    exact Variable.twin .none
  | initial hname hequal he hsemicolon =>
    obtain ⟨name, _, rfl, hname', hlexeme, -, hagree⟩ := hagree.name hname
    obtain ⟨equal, _, rfl, hequal', hagree⟩ := hagree.word hequal (by decide)
    obtain ⟨e, semicolon, rest', he', hsemicolon', hrest, htwin⟩ := he.graftClosed hsemicolon (by decide) hagree
    refine ⟨_, rest', .initial hname' hequal' he' hsemicolon', hrest, ?_⟩
    rw [hlexeme]
    exact Variable.twin (.some htwin)

theorem First.graft {i : Initializer} (h : First input i rest) (hagree : Agree tail input tokens) :
    ∃ i' rest', First tokens i' rest' ∧ Agree tail rest rest' ∧ i.Twin i' := by
  cases h with
  | empty hsemicolon =>
    obtain ⟨semicolon, rest', rfl, hsemicolon', hrest⟩ := hagree.word hsemicolon (by decide)
    exact ⟨_, rest', .empty hsemicolon', hrest, .empty⟩
  | var hword hv =>
    obtain ⟨word, _, rfl, hword', hagree⟩ := hagree.word hword (by decide)
    obtain ⟨v, rest', hv', hrest, htwin⟩ := hv.graft hagree
    exact ⟨_, rest', .var hword' hv', hrest, .var htwin⟩
  | expression he hsemicolon =>
    obtain ⟨e, semicolon, rest', he', hsemicolon', hrest, htwin⟩ := he.graftClosed hsemicolon (by decide) hagree
    exact ⟨_, rest', .expression he' hsemicolon', hrest, .expression htwin⟩

theorem Second.graft {condition : Option Expr} {line : UInt32} (h : Second input condition line rest)
    (hagree : Agree tail input tokens) :
    ∃ condition' line' rest', Second tokens condition' line' rest' ∧ Agree tail rest rest' ∧
      Expr.TwinOption condition condition' := by
  cases h with
  | empty hsemicolon =>
    obtain ⟨semicolon, rest', rfl, hsemicolon', hrest⟩ := hagree.word hsemicolon (by decide)
    exact ⟨_, _, rest', .empty hsemicolon', hrest, .none⟩
  | expression he hsemicolon =>
    obtain ⟨e, semicolon, rest', he', hsemicolon', hrest, htwin⟩ := he.graftClosed hsemicolon (by decide) hagree
    exact ⟨_, _, rest', .expression he' hsemicolon', hrest, .some htwin⟩

theorem Third.graft {increment : Option (Expr × UInt32)} (h : Third input increment rest)
    (hagree : Agree tail input tokens) :
    ∃ increment' rest', Third tokens increment' rest' ∧ Agree tail rest rest' ∧
      Expr.TwinClause increment increment' := by
  cases h with
  | empty hclose =>
    obtain ⟨close, rest', rfl, hclose', hrest⟩ := hagree.word hclose (by decide)
    exact ⟨_, rest', .empty hclose', hrest, .none⟩
  | expression he hclose =>
    obtain ⟨e, close, rest', he', hclose', hrest, htwin⟩ := he.graftClosed hclose (by decide) hagree
    exact ⟨_, rest', .expression he' hclose', hrest, .some htwin⟩

theorem Parameters.graft {names : List String} (h : Parameters input names rest) :
    ∀ {tokens : List Token}, Agree tail input tokens → ∃ rest', Parameters tokens names rest' ∧
      Agree tail rest rest' := by
  induction h with
  | one hname =>
    intro tokens hagree
    obtain ⟨name, rest', rfl, hname', hlexeme, -, hrest⟩ := hagree.name hname
    exact ⟨rest', hlexeme ▸ .one hname', hrest⟩
  | more hname hcomma _ ih =>
    intro tokens hagree
    obtain ⟨name, _, rfl, hname', hlexeme, -, hagree⟩ := hagree.name hname
    obtain ⟨comma, _, rfl, hcomma', hagree⟩ := hagree.word hcomma (by decide)
    obtain ⟨rest', h', hrest⟩ := ih hagree
    exact ⟨rest', hlexeme ▸ .more hname' hcomma' h', hrest⟩

theorem Signature.graft {names : List String} (h : Signature input names rest)
    (hagree : Agree tail input tokens) :
    ∃ rest', Signature tokens names rest' ∧ Agree tail rest rest' := by
  cases h with
  | bare hopen hclose =>
    obtain ⟨left, _, rfl, hopen', hagree⟩ := hagree.word hopen (by decide)
    obtain ⟨right, rest', rfl, hclose', hrest⟩ := hagree.word hclose (by decide)
    exact ⟨rest', .bare hopen' hclose', hrest⟩
  | named hopen h hclose =>
    obtain ⟨left, _, rfl, hopen', hagree⟩ := hagree.word hopen (by decide)
    obtain ⟨_, h', hagree⟩ := h.graft hagree
    obtain ⟨right, rest', rfl, hclose', hrest⟩ := hagree.word hclose (by decide)
    exact ⟨rest', .named hopen' h' hclose', hrest⟩

/-! ### Statements and declarations -/

mutual

theorem Statement.graft {input rest : List Token} {s : Stmt} : Statement input s rest → ∀ {tokens : List Token},
    Agree tail input tokens → ∃ s' rest', Statement tokens s' rest' ∧ Agree tail rest rest' ∧ s.Twin s'
  | .print hword he hsemicolon, _, hagree => by
    obtain ⟨word, _, rfl, hword', hagree⟩ := hagree.word hword (by decide)
    obtain ⟨e, semicolon, rest', he', hsemicolon', hrest, htwin⟩ := he.graftClosed hsemicolon (by decide) hagree
    exact ⟨_, rest', .print hword' he' hsemicolon', hrest, .print htwin⟩
  | .expression he hsemicolon, _, hagree => by
    obtain ⟨e, semicolon, rest', he', hsemicolon', hrest, htwin⟩ := he.graftClosed hsemicolon (by decide) hagree
    exact ⟨_, rest', .expression he' hsemicolon', hrest, .expression htwin⟩
  | .bareReturn hword hsemicolon, _, hagree => by
    obtain ⟨word, _, rfl, hword', hagree⟩ := hagree.word hword (by decide)
    obtain ⟨semicolon, rest', rfl, hsemicolon', hrest⟩ := hagree.word hsemicolon (by decide)
    exact ⟨_, rest', .bareReturn hword' hsemicolon', hrest, .bareReturn⟩
  | .ret hword he hsemicolon, _, hagree => by
    obtain ⟨word, _, rfl, hword', hagree⟩ := hagree.word hword (by decide)
    obtain ⟨e, semicolon, rest', he', hsemicolon', hrest, htwin⟩ := he.graftClosed hsemicolon (by decide) hagree
    exact ⟨_, rest', .ret hword' he' hsemicolon', hrest, .ret htwin⟩
  | .ifThen hword hopen he hclose hs helse, _, hagree => by
    obtain ⟨word, _, rfl, hword', hagree⟩ := hagree.word hword (by decide)
    obtain ⟨left, _, rfl, hopen', hagree⟩ := hagree.word hopen (by decide)
    obtain ⟨e, right, _, he', hclose', hagree, htwin⟩ := he.graftClosed hclose (by decide) hagree
    obtain ⟨s, rest', hs', hrest, htwin'⟩ := hs.graft hagree
    exact ⟨_, rest', .ifThen hword' hopen' he' hclose' hs' (hrest.noElse helse), hrest, .ifThen htwin htwin'⟩
  | .ifElse hword hopen he hclose hs hother ht, _, hagree => by
    obtain ⟨word, _, rfl, hword', hagree⟩ := hagree.word hword (by decide)
    obtain ⟨left, _, rfl, hopen', hagree⟩ := hagree.word hopen (by decide)
    obtain ⟨e, right, _, he', hclose', hagree, htwin⟩ := he.graftClosed hclose (by decide) hagree
    obtain ⟨s, _, hs', hagree, htwin'⟩ := hs.graft hagree
    obtain ⟨other, _, rfl, hother', hagree⟩ := hagree.word hother (by decide)
    obtain ⟨t, rest', ht', hrest, htwin''⟩ := ht.graft hagree
    exact ⟨_, rest', .ifElse hword' hopen' he' hclose' hs' hother' ht', hrest, .ifElse htwin htwin' htwin''⟩
  | .whileLoop hword hopen he hclose hs, _, hagree => by
    obtain ⟨word, _, rfl, hword', hagree⟩ := hagree.word hword (by decide)
    obtain ⟨left, _, rfl, hopen', hagree⟩ := hagree.word hopen (by decide)
    obtain ⟨e, right, _, he', hclose', hagree, htwin⟩ := he.graftClosed hclose (by decide) hagree
    obtain ⟨s, rest', hs', hrest, htwin'⟩ := hs.graft hagree
    exact ⟨_, rest', .whileLoop hword' hopen' he' hclose' hs', hrest, .whileLoop htwin htwin'⟩
  | .forLoop hword hopen hfirst hsecond hthird hs, _, hagree => by
    obtain ⟨word, _, rfl, hword', hagree⟩ := hagree.word hword (by decide)
    obtain ⟨left, _, rfl, hopen', hagree⟩ := hagree.word hopen (by decide)
    obtain ⟨i, _, hfirst', hagree, htwin⟩ := hfirst.graft hagree
    obtain ⟨condition, line, _, hsecond', hagree, hcondition⟩ := hsecond.graft hagree
    obtain ⟨increment, _, hthird', hagree, hincrement⟩ := hthird.graft hagree
    obtain ⟨s, rest', hs', hrest, htwin'⟩ := hs.graft hagree
    exact ⟨_, rest', .forLoop hword' hopen' hfirst' hsecond' hthird' hs', hrest,
      .forLoop htwin hcondition hincrement htwin'⟩
  | .block hopen hds hclose, _, hagree => by
    obtain ⟨left, _, rfl, hopen', hagree⟩ := hagree.word hopen (by decide)
    obtain ⟨ds, _, hds', hagree, htwins⟩ := hds.graft hagree
    obtain ⟨right, rest', rfl, hclose', hrest⟩ := hagree.word hclose (by decide)
    exact ⟨_, rest', .block hopen' hds' hclose', hrest, .block htwins⟩

theorem Declaration.graft {input rest : List Token} {d : Decl} :
    Declaration input d rest → ∀ {tokens : List Token},
    Agree tail input tokens → ∃ d' rest', Declaration tokens d' rest' ∧ Agree tail rest rest' ∧ d.Twin d'
  | .var hword hv, _, hagree => by
    obtain ⟨word, _, rfl, hword', hagree⟩ := hagree.word hword (by decide)
    obtain ⟨v, rest', hv', hrest, htwin⟩ := hv.graft hagree
    exact ⟨_, rest', .var hword' hv', hrest, .var htwin⟩
  | .function hword hname hparameters hopen hds hclose, _, hagree => by
    obtain ⟨word, _, rfl, hword', hagree⟩ := hagree.word hword (by decide)
    obtain ⟨name, _, rfl, hname', hlexeme, -, hagree⟩ := hagree.name hname
    obtain ⟨_, hparameters', hagree⟩ := hparameters.graft hagree
    obtain ⟨left, _, rfl, hopen', hagree⟩ := hagree.word hopen (by decide)
    obtain ⟨ds, _, hds', hagree, htwins⟩ := hds.graft hagree
    obtain ⟨right, rest', rfl, hclose', hrest⟩ := hagree.word hclose (by decide)
    refine ⟨_, rest', .function hword' hname' hparameters' hopen' hds' hclose', hrest, ?_⟩
    rw [hlexeme]
    exact .function htwins
  | .statement hs, _, hagree => by
    obtain ⟨s, rest', hs', hrest, htwin⟩ := hs.graft hagree
    exact ⟨_, rest', .statement hs', hrest, .statement htwin⟩

theorem Declarations.graft {input rest : List Token} {ds : List Decl} : Declarations input ds rest →
    ∀ {tokens : List Token},
    Agree tail input tokens → ∃ ds' rest', Declarations tokens ds' rest' ∧ Agree tail rest rest' ∧
      Decl.Twins ds ds'
  | .none, tokens, hagree => ⟨[], tokens, .none, hagree, .nil⟩
  | .more hd hds, _, hagree => by
    obtain ⟨d, _, hd', hagree, htwin⟩ := hd.graft hagree
    obtain ⟨ds, rest', hds', hrest, htwins⟩ := hds.graft hagree
    exact ⟨_, rest', .more hd' hds', hrest, .cons htwin htwins⟩

end

theorem Declarations.append {input tokens rest : List Token} {ds ds' : List Decl} :
    Declarations input ds tokens → Declarations tokens ds' rest → Declarations input (ds ++ ds') rest
  | .none, h => h
  | .more hd hds, h => .more hd (hds.append h)

end Lox.Grammar
