import Lox.Proofs.Grammar

/-! # Reading expressions by precedence

The levels of the grammar can be read without looking ahead for more than one token: an operand, and then
every operator that binds at least as tightly as the context asks for. This file relates the two readings of a
token sequence. The main result is `Precedence.expression_iff`: they agree on every expression after which
neither an operator nor an `=` follows. -/

namespace Lox

namespace Level

/-- Whether the operators of a level take an expression of the same level on their left. -/
def associatesLeft : Level → Bool
  | equality | comparison | term | factor | call => true
  | _ => false

theorem rank_inj {a b : Level} (h : a.rank = b.rank) : a = b := by
  cases a <;> cases b <;> first | rfl | cases h

theorem rank_next {level : Level} (h : level.rank < primary.rank) : level.next.rank = level.rank + 1 := by
  cases level <;> first | rfl | exact absurd h (by decide)

theorem rank_le_next (level : Level) : level.rank ≤ level.next.rank := by
  cases level <;> decide

theorem next_ne_none (level : Level) : level.next ≠ none := by
  cases level <;> decide

theorem rank_ofKind_lt_primary (kind : Token.Kind) : (ofKind kind).rank < primary.rank := by
  cases kind <;> decide

end Level

namespace BinaryOp

theorem ofKind_of_ofKind? {kind : Token.Kind} {op : BinaryOp} (h : ofKind? kind = some op) :
    Level.ofKind kind = op.level := by
  cases kind <;> simp only [ofKind?, Option.some.injEq, reduceCtorEq] at h <;> subst h <;> rfl

theorem level_associatesLeft (op : BinaryOp) : op.level.associatesLeft = true := by
  cases op <;> rfl

theorem rank_level (op : BinaryOp) : Level.and.rank < op.level.rank ∧ op.level.rank < Level.unary.rank := by
  cases op <;> decide

theorem ne_equal_of_ofKind? {kind : Token.Kind} {op : BinaryOp} (h : ofKind? kind = some op) :
    kind ≠ .equal := by
  rintro rfl
  cases h

end BinaryOp

namespace Precedence

/-- The next token, if there is one, is an operator of a looser level or none. -/
def Stops (level : Level) (rest : List Token) : Prop :=
  ∀ token ∈ rest.head?, (Level.ofKind token.kind).rank < level.rank

/-- The next token is not `=`. -/
def NoEqual (rest : List Token) : Prop := ∀ token ∈ rest.head?, token.kind ≠ .equal

mutual

/-- An expression read at a level: an operand and the operators after it. -/
inductive Expression : Level → List Token → Expr → List Token → Prop where
  | mk {level : Level} {token : Token} {input middle rest : List Token} {first e : Expr}
      (hfirst : Operand (level.rank ≤ Level.assignment.rank) token input first middle)
      (hrest : Operators level first middle e rest) (hend : level.rank ≤ Level.assignment.rank → NoEqual rest) :
      Expression level (token :: input) e rest

/-- The operand that begins with a token. It may be an assignment if the flag says so. -/
inductive Operand : Bool → Token → List Token → Expr → List Token → Prop where
  | literal {assignable : Bool} {token : Token} {rest : List Token} {value : Literal}
      (htoken : Literal.ofToken? token = some value) :
        Operand assignable token rest (.literal value token.line) rest
  | mention {assignable : Bool} {name : Token} {rest : List Token} (hname : name.kind = .identifier)
      (hnext : assignable = true → NoEqual rest) :
        Operand assignable name rest (.mention name.lexeme name.line) rest
  | assign {name equal : Token} {input rest : List Token} {value : Expr} (hname : name.kind = .identifier)
      (hequal : equal.kind = .equal) (hvalue : Expression .assignment input value rest) :
      Operand true name (equal :: input) (.assign name.lexeme value) rest
  | group {assignable : Bool} {left right : Token} {input rest : List Token} {inner : Expr}
      (hopen : left.kind = .leftParen) (hinner : Expression .assignment input inner (right :: rest))
      (hclose : right.kind = .rightParen) : Operand assignable left input (.group inner right.line) rest
  | unary {assignable : Bool} {word : Token} {input rest : List Token} {op : UnaryOp} {operand : Expr}
      (hword : UnaryOp.ofKind? word.kind = some op) (hoperand : Expression .unary input operand rest) :
      Operand assignable word input (.unary op operand) rest

/-- The operators of at least a level after what stands on their left. -/
inductive Operators : Level → Expr → List Token → Expr → List Token → Prop where
  | stop {level : Level} {left : Expr} {rest : List Token} (hstop : Stops level rest) :
      Operators level left rest left rest
  | or {level : Level} {word : Token} {input middle rest : List Token} {left right e : Expr}
      (hword : word.kind = .orWord) (hlevel : level.rank ≤ Level.or.rank)
        (hright : Expression .or input right middle)
      (hrest : Operators level (.or left word.line right) middle e rest) :
        Operators level left (word :: input) e rest
  | and {level : Level} {word : Token} {input middle rest : List Token} {left right e : Expr}
      (hword : word.kind = .andWord) (hlevel : level.rank ≤ Level.and.rank)
      (hright : Expression .and input right middle)
      (hrest : Operators level (.and left word.line right) middle e rest) :
        Operators level left (word :: input) e rest
  | binary {level : Level} {word : Token} {op : BinaryOp} {input middle rest : List Token} {left right e : Expr}
      (hword : BinaryOp.ofKind? word.kind = some op) (hlevel : level.rank ≤ op.level.rank)
      (hright : Expression op.level.next input right middle)
      (hrest : Operators level (.binary op left right) middle e rest) :
        Operators level left (word :: input) e rest
  | bareCall {level : Level} {word close : Token} {input rest : List Token} {left e : Expr}
      (hword : word.kind = .leftParen) (hlevel : level.rank ≤ Level.call.rank)
        (hclose : close.kind = .rightParen)
      (hrest : Operators level (.call left [] close.line) input e rest) :
      Operators level left (word :: close :: input) e rest
  | call {level : Level} {word close : Token} {input middle rest : List Token} {left e : Expr}
      {arguments : List Expr}
      (hword : word.kind = .leftParen) (hlevel : level.rank ≤ Level.call.rank)
      (harguments : Arguments input arguments (close :: middle)) (hclose : close.kind = .rightParen)
      (hrest : Operators level (.call left arguments close.line) middle e rest) :
      Operators level left (word :: input) e rest

/-- One or more arguments with commas between them. -/
inductive Arguments : List Token → List Expr → List Token → Prop where
  | one {input rest : List Token} {e : Expr} (h : Expression .assignment input e rest) :
      Arguments input [e] rest
  | more {input middle rest : List Token} {comma : Token} {e : Expr} {es : List Expr}
      (h : Expression .assignment input e (comma :: middle)) (hcomma : comma.kind = .comma)
      (hs : Arguments middle es rest) : Arguments input (e :: es) rest

end

/-! ### What may follow -/

/-- After an expression of a level stands an operator of a looser level, or one that takes it as
    its left operand. -/
def Follows (level : Level) (rest : List Token) : Prop :=
  ∀ token ∈ rest.head?, (Level.ofKind token.kind).rank < level.rank ∨
    Level.ofKind token.kind = level ∧ level.associatesLeft = true

theorem Stops.follows {level : Level} {rest : List Token} (h : Stops level rest) : Follows level rest :=
  fun token ht => Or.inl (h token ht)

theorem Follows.rank_le {level : Level} {token : Token} {rest : List Token}
    (h : Follows level (token :: rest)) :
    (Level.ofKind token.kind).rank ≤ level.rank := by
  rcases h token rfl with h | ⟨h, -⟩
  · exact Nat.le_of_lt h
  · exact h ▸ Nat.le_refl _

theorem rank_lt_next {level : Level} (h : level.associatesLeft = true) : level.rank < level.next.rank := by
  cases level <;> first | decide | cases h

/-- After an expression of a level, one of the next tighter level stops. -/
theorem Follows.stops_next {level : Level} {rest : List Token} (h : Follows level rest)
    (hlt : level.rank < level.next.rank) :
    Stops level.next rest := by
  intro token ht
  rcases h token ht with h | ⟨h, -⟩
  · exact Nat.lt_trans h hlt
  · exact h ▸ hlt

theorem Follows.next {level : Level} {rest : List Token} (h : Follows level rest) :
    Follows level.next rest := by
  intro token ht
  rcases h token ht with h | ⟨h, hassoc⟩
  · exact Or.inl (Nat.lt_of_lt_of_le h level.rank_le_next)
  · exact Or.inl (by rw [h]; exact rank_lt_next hassoc)

/-- Operators that are looser than the next level are at most of this one. -/
theorem Stops.follows_of_next {level : Level} {rest : List Token} (h : Stops level.next rest)
    (hassoc : level.associatesLeft = true) (hlt : level.rank < Level.primary.rank) : Follows level rest := by
  intro token ht
  have hrank := h token ht
  rw [Level.rank_next hlt] at hrank
  rcases Nat.lt_or_eq_of_le (Nat.le_of_lt_succ hrank) with hless | heq
  · exact Or.inl hless
  · exact Or.inr ⟨Level.rank_inj heq, hassoc⟩

theorem follows_primary (rest : List Token) : Follows .primary rest :=
  fun token _ => Or.inl (Level.rank_ofKind_lt_primary token.kind)

theorem follows_call (rest : List Token) : Follows .call rest := by
  intro token _
  have hrank := Level.rank_ofKind_lt_primary token.kind
  rcases Nat.lt_or_eq_of_le (Nat.le_of_lt_succ hrank) with hless | heq
  · exact Or.inl hless
  · exact Or.inr ⟨Level.rank_inj heq, rfl⟩

/-! ### From precedence to the grammar -/

/-- An expression of a level is one of every looser level. -/
theorem loosen {level tight : Level} {input rest : List Token} {e : Expr} (hlevel : level ≠ .none)
    (hrank : level.rank ≤ tight.rank) (h : Grammar.Expression tight input e rest) :
    Grammar.Expression level input e rest := by
  by_cases heq : level.rank = tight.rank
  · rw [Level.rank_inj heq]
    exact h
  · have hlt : level.rank < tight.rank := Nat.lt_of_le_of_ne hrank heq
    have htop : tight.rank ≤ Level.primary.rank := by cases tight <;> decide
    have hnext : level.next.rank = level.rank + 1 := Level.rank_next (Nat.lt_of_lt_of_le hlt htop)
    exact .tighter hlevel (loosen level.next_ne_none (by omega) h)
termination_by tight.rank - level.rank

/-- Where an operand belongs: an assignment where one may stand, and else an operator before its
    operand or a primary. -/
def OperandLevel (assignable : Bool) (level : Level) : Prop :=
  Level.unary.rank ≤ level.rank ∨ assignable = true ∧ level = .assignment

mutual

theorem Expression.toGrammar {level : Level} {input rest : List Token} {e : Expr} (hlevel : level ≠ .none)
    (hrank : level.rank ≤ Level.unary.rank) : Expression level input e rest →
    Grammar.Expression level input e rest ∧ Stops level rest
  | .mk hfirst hrest _ => by
    obtain ⟨tight, hg, hplace, hfollows⟩ := hfirst.toGrammar
    have hle : level.rank ≤ tight.rank := by
      rcases hplace with h | ⟨h, rfl⟩
      · exact Nat.le_trans hrank h
      · exact of_decide_eq_true h
    exact hrest.toGrammar hlevel hg hle hfollows

theorem Operand.toGrammar {assignable : Bool} {token : Token} {input rest : List Token} {e : Expr} :
    Operand assignable token input e rest →
    ∃ level, Grammar.Expression level (token :: input) e rest ∧ OperandLevel assignable level ∧
      Follows level rest
  | .literal htoken => ⟨.primary, .literal htoken, Or.inl (by decide), follows_primary _⟩
  | .mention hname _ => ⟨.primary, .mention hname, Or.inl (by decide), follows_primary _⟩
  | .assign hname hequal hvalue => by
    obtain ⟨hg, hstop⟩ := hvalue.toGrammar (by decide) (by decide)
    exact ⟨.assignment, .assign hname hequal hg, Or.inr ⟨rfl, rfl⟩, hstop.follows⟩
  | .group hopen hinner hclose => by
    obtain ⟨hg, -⟩ := hinner.toGrammar (by decide) (by decide)
    exact ⟨.primary, .group hopen hg hclose, Or.inl (by decide), follows_primary _⟩
  | .unary hword hoperand => by
    obtain ⟨hg, hstop⟩ := hoperand.toGrammar (by decide) (by decide)
    exact ⟨.unary, .unary hword hg, Or.inl (by decide), hstop.follows⟩

/-- The left operand of each operator has the level that the grammar asks for, since what follows it
    binds no tighter. -/
theorem Operators.toGrammar {level tight : Level} {left e : Expr} {input middle rest : List Token}
    (hlevel : level ≠ .none)
    (hleft : Grammar.Expression tight input left middle) (hrank : level.rank ≤ tight.rank)
    (hfollows : Follows tight middle) : Operators level left middle e rest →
    Grammar.Expression level input e rest ∧ Stops level rest
  | .stop hstop => ⟨loosen hlevel hrank hleft, hstop⟩
  | .or hword hle hright hrest => by
    obtain ⟨hg, hstop⟩ := hright.toGrammar (by decide) (by decide)
    have hand : Level.and.rank ≤ tight.rank := by
      have hlt := hfollows _ rfl
      rw [hword] at hlt
      rcases hlt with h | ⟨rfl, h⟩
      · exact h
      · cases h
    exact hrest.toGrammar hlevel (.or (loosen (by decide) hand hleft) hword hg) hle hstop.follows
  | .and hword hle hright hrest => by
    obtain ⟨hg, hstop⟩ := hright.toGrammar (by decide) (by decide)
    have hequality : Level.equality.rank ≤ tight.rank := by
      have hlt := hfollows _ rfl
      rw [hword] at hlt
      rcases hlt with h | ⟨rfl, h⟩
      · exact h
      · cases h
    exact hrest.toGrammar hlevel (.and (loosen (by decide) hequality hleft) hword hg) hle hstop.follows
  | @Operators.binary _ _ op _ _ _ _ _ _ hword hle hright hrest => by
    have hunary := op.rank_level.2
    have hnext : op.level.next.rank = op.level.rank + 1 := Level.rank_next (Nat.lt_trans hunary (by decide))
    obtain ⟨hg, hstop⟩ := hright.toGrammar op.level.next_ne_none (by omega)
    have hop : op.level.rank ≤ tight.rank := by
      have hle := hfollows.rank_le
      rwa [BinaryOp.ofKind_of_ofKind? hword] at hle
    have hne : op.level ≠ .none := by cases op <;> decide
    exact hrest.toGrammar hlevel (.binary (loosen hne hop hleft) hword hg) hle
      (hstop.follows_of_next op.level_associatesLeft (Nat.lt_trans hunary (by decide)))
  | .bareCall hword hle hclose hrest => by
    have hcall : Level.call.rank ≤ tight.rank := by
      have hle := hfollows.rank_le
      rwa [hword] at hle
    exact hrest.toGrammar hlevel (.bareCall (loosen (by decide) hcall hleft) hword hclose) hle (follows_call _)
  | .call hword hle harguments hclose hrest => by
    have hcall : Level.call.rank ≤ tight.rank := by
      have hle := hfollows.rank_le
      rwa [hword] at hle
    exact hrest.toGrammar hlevel (.call (loosen (by decide) hcall hleft) hword harguments.toGrammar hclose) hle
      (follows_call _)

theorem Arguments.toGrammar {input rest : List Token} {es : List Expr} : Arguments input es rest →
    Grammar.Arguments input es rest
  | .one h => .one (h.toGrammar (by decide) (by decide)).1
  | .more h hcomma hs => .more (h.toGrammar (by decide) (by decide)).1 hcomma hs.toGrammar

end

/-! ### From the grammar to precedence -/

/-- What follows neither continues an expression nor makes it the target of an assignment. -/
def Closed (rest : List Token) : Prop := ∀ token ∈ rest.head?, Level.ofKind token.kind = .none ∧
    token.kind ≠ .equal

theorem closed_cons {token : Token} {kind : Token.Kind} {rest : List Token} (h : token.kind = kind)
    (hkind : Level.ofKind kind = .none ∧ kind ≠ .equal) : Closed (token :: rest) := by
  rintro _ ⟨⟩
  rw [h]
  exact hkind

theorem Closed.stops {rest : List Token} (h : Closed rest) : Stops .assignment rest := by
  intro token ht
  rw [(h token ht).1]
  decide

theorem Closed.noEqual {rest : List Token} (h : Closed rest) : NoEqual rest := fun token ht => (h token ht).2

theorem closed_of_stops {rest : List Token} (h : Stops .assignment rest) (hne : NoEqual rest) : Closed rest :=
  fun token ht => ⟨Level.rank_inj (Nat.lt_one_iff.mp (h token ht)), hne token ht⟩

theorem noEqual_cons {token : Token} {kind : Token.Kind} {rest : List Token} (h : token.kind = kind)
    (hkind : kind ≠ .equal) : NoEqual (token :: rest) := by
  rintro _ ⟨⟩
  rw [h]
  exact hkind

/-- Where operators associate to the right, only looser ones follow. -/
theorem Follows.stops {level : Level} {rest : List Token} (h : Follows level rest)
    (hassoc : level.associatesLeft = false) :
    Stops level rest := by
  intro token ht
  rcases h token ht with h | ⟨-, h⟩
  · exact h
  · rw [hassoc] at h
    cases h

theorem follows_cons {level : Level} {token : Token} {kind : Token.Kind} {rest : List Token}
    (h : token.kind = kind)
    (hkind : (Level.ofKind kind).rank < level.rank) : Follows level (token :: rest) := by
  rintro _ ⟨⟩
  rw [h]
  exact Or.inl hkind

mutual

/-- Reading at a level of the context comes past an expression of the grammar to what follows it. -/
theorem ofGrammar {tight level : Level} {input middle rest : List Token} {left e : Expr}
    (hlevel : level ≠ .none)
    (hrank : level.rank ≤ tight.rank) (hfollows : Follows tight middle) (hequal : NoEqual middle)
    (hrest : Operators level left middle e rest) (hend : level.rank ≤ Level.assignment.rank → NoEqual rest) :
    Grammar.Expression tight input left middle → Expression level input e rest
  | .assign hname hequal' hvalue => by
    have hassignment : level.rank ≤ Level.assignment.rank := hrank
    have hread := ofGrammar (by decide) (Nat.le_refl _) hfollows hequal (.stop (hfollows.stops rfl))
      (fun _ => hequal) hvalue
    refine .mk ?_ hrest hend
    rw [decide_eq_true hassignment]
    exact .assign hname hequal' hread
  | .or hleft hword hright => by
    have hread := ofGrammar (by decide) (Nat.le_refl _) hfollows hequal (.stop (hfollows.stops rfl))
      (fun h => absurd h (by decide)) hright
    exact ofGrammar hlevel (Nat.le_trans hrank (by decide)) (follows_cons hword (by decide))
      (noEqual_cons hword (by decide))
      (.or hword hrank hread hrest) hend hleft
  | .and hleft hword hright => by
    have hread := ofGrammar (by decide) (Nat.le_refl _) hfollows hequal (.stop (hfollows.stops rfl))
      (fun h => absurd h (by decide)) hright
    exact ofGrammar hlevel (Nat.le_trans hrank (by decide)) (follows_cons hword (by decide))
      (noEqual_cons hword (by decide))
      (.and hword hrank hread hrest) hend hleft
  | @Grammar.Expression.binary _ _ _ _ op _ _ hleft hword hright => by
    have hlt := rank_lt_next op.level_associatesLeft
    have hloose : ¬op.level.next.rank ≤ Level.assignment.rank :=
      fun h => absurd (Nat.lt_of_lt_of_le (Nat.lt_trans op.rank_level.1 hlt) h) (by decide)
    have hread := ofGrammar op.level.next_ne_none (Nat.le_refl _) hfollows.next hequal
      (.stop (hfollows.stops_next hlt))
      (fun h => absurd h hloose) hright
    refine ofGrammar hlevel hrank ?_ (noEqual_cons rfl (BinaryOp.ne_equal_of_ofKind? hword))
      (.binary hword hrank hread hrest)
      hend hleft
    rintro _ ⟨⟩
    exact Or.inr ⟨BinaryOp.ofKind_of_ofKind? hword, op.level_associatesLeft⟩
  | .unary hword hoperand => by
    have hread := ofGrammar (by decide) (Nat.le_refl _) hfollows hequal (.stop (hfollows.stops rfl))
      (fun h => absurd h (by decide)) hoperand
    exact .mk (.unary hword hread) hrest hend
  | .bareCall hcallee hopen hclose =>
    ofGrammar hlevel hrank (follows_call _) (noEqual_cons hopen (by decide))
      (.bareCall hopen hrank hclose hrest) hend
      hcallee
  | .call hcallee hopen harguments hclose => by
    have hread := ofGrammarArguments (closed_cons hclose (by decide)) harguments
    exact ofGrammar hlevel hrank (follows_call _) (noEqual_cons hopen (by decide))
      (.call hopen hrank hread hclose hrest) hend hcallee
  | .literal htoken => .mk (.literal htoken) hrest hend
  | .mention hname => .mk (.mention hname fun _ => hequal) hrest hend
  | .group hopen hinner hclose => by
    have hc : Closed (_ :: middle) := closed_cons hclose (by decide)
    have hread := ofGrammar (by decide) (Nat.le_refl _) hc.stops.follows hc.noEqual (.stop hc.stops)
      (fun _ => hc.noEqual) hinner
    exact .mk (.group hopen hread hclose) hrest hend
  | .tighter _ h =>
    ofGrammar hlevel (Nat.le_trans hrank (Level.rank_le_next _)) hfollows.next hequal hrest hend h

theorem ofGrammarArguments {input rest : List Token} {es : List Expr} (hc : Closed rest) :
    Grammar.Arguments input es rest → Arguments input es rest
  | .one h => .one (ofGrammar (by decide) (Nat.le_refl _) hc.stops.follows hc.noEqual (.stop hc.stops)
      (fun _ => hc.noEqual) h)
  | @Grammar.Arguments.more _ middle _ _ _ _ h hcomma hs => by
    have hc' : Closed (_ :: middle) := closed_cons hcomma (by decide)
    exact .more (ofGrammar (by decide) (Nat.le_refl _) hc'.stops.follows hc'.noEqual (.stop hc'.stops)
      (fun _ => hc'.noEqual) h) hcomma (ofGrammarArguments hc hs)

end

/-- Reading by precedence finds exactly the expressions of the grammar after which neither an operator
    nor an `=` follows. -/
theorem expression_iff {input rest : List Token} {e : Expr} :
    Expression .assignment input e rest ↔ Grammar.Expression .assignment input e rest ∧ Closed rest := by
  constructor
  · intro h
    obtain ⟨hg, hstop⟩ := h.toGrammar (by decide) (by decide)
    cases h with
    | mk _ _ hend => exact ⟨hg, closed_of_stops hstop (hend (by decide))⟩
  · rintro ⟨hg, hc⟩
    exact ofGrammar (by decide) (Nat.le_refl _) hc.stops.follows hc.noEqual (.stop hc.stops)
      (fun _ => hc.noEqual) hg

/-! ### One operator at a time -/

/-- An operator and what stands on its right, after its word, make a larger expression of what
    stands on its left. -/
inductive Applies (left : Expr) (word : Token) : List Token → Expr → List Token → Prop where
  | or {input rest : List Token} {right : Expr} (hword : word.kind = .orWord)
      (hright : Expression .or input right rest) :
      Applies left word input (.or left word.line right) rest
  | and {input rest : List Token} {right : Expr} (hword : word.kind = .andWord)
      (hright : Expression .and input right rest) : Applies left word input (.and left word.line right) rest
  | binary {op : BinaryOp} {input rest : List Token} {right : Expr}
      (hword : BinaryOp.ofKind? word.kind = some op)
      (hright : Expression op.level.next input right rest) :
        Applies left word input (.binary op left right) rest
  | bareCall {close : Token} {rest : List Token} (hword : word.kind = .leftParen)
      (hclose : close.kind = .rightParen) :
      Applies left word (close :: rest) (.call left [] close.line) rest
  | call {close : Token} {input rest : List Token} {arguments : List Expr} (hword : word.kind = .leftParen)
      (harguments : Arguments input arguments (close :: rest)) (hclose : close.kind = .rightParen) :
      Applies left word input (.call left arguments close.line) rest

theorem operators_iff {level : Level} {left e : Expr} {tokens rest : List Token} :
    Operators level left tokens e rest ↔ (Stops level tokens ∧ e = left ∧ rest = tokens) ∨
      ∃ word input larger middle, tokens = word :: input ∧ level.rank ≤ (Level.ofKind word.kind).rank ∧
        Applies left word input larger middle ∧ Operators level larger middle e rest := by
  constructor
  · intro h
    cases h with
    | stop hstop => exact Or.inl ⟨hstop, rfl, rfl⟩
    | or hword hlevel hright hrest =>
      exact Or.inr ⟨_, _, _, _, rfl, by rw [hword]; exact hlevel, .or hword hright, hrest⟩
    | and hword hlevel hright hrest =>
      exact Or.inr ⟨_, _, _, _, rfl, by rw [hword]; exact hlevel, .and hword hright, hrest⟩
    | binary hword hlevel hright hrest =>
      exact Or.inr ⟨_, _, _, _, rfl, by rw [BinaryOp.ofKind_of_ofKind? hword]; exact hlevel,
        .binary hword hright, hrest⟩
    | bareCall hword hlevel hclose hrest =>
      exact Or.inr ⟨_, _, _, _, rfl, by rw [hword]; exact hlevel, .bareCall hword hclose, hrest⟩
    | call hword hlevel harguments hclose hrest =>
      exact Or.inr ⟨_, _, _, _, rfl, by rw [hword]; exact hlevel, .call hword harguments hclose, hrest⟩
  · rintro (⟨hstop, rfl, rfl⟩ | ⟨word, input, larger, middle, rfl, hlevel, happlies, hrest⟩)
    · exact .stop hstop
    · cases happlies with
      | or hword hright => exact .or hword (by rwa [hword] at hlevel) hright hrest
      | and hword hright => exact .and hword (by rwa [hword] at hlevel) hright hrest
      | binary hword hright =>
        exact .binary hword (by rwa [BinaryOp.ofKind_of_ofKind? hword] at hlevel) hright hrest
      | bareCall hword hclose => exact .bareCall hword (by rwa [hword] at hlevel) hclose hrest
      | call hword harguments hclose => exact .call hword (by rwa [hword] at hlevel) harguments hclose hrest

/-! ### Progress -/

mutual

theorem Expression.length_lt {level : Level} {input rest : List Token} {e : Expr} :
    Expression level input e rest → rest.length < input.length
  | .mk hfirst hrest _ => Nat.lt_succ_of_le (Nat.le_trans hrest.length_le hfirst.length_le)

theorem Operand.length_le {assignable : Bool} {token : Token} {input rest : List Token} {e : Expr} :
    Operand assignable token input e rest → rest.length ≤ input.length
  | .literal _ => Nat.le_refl _
  | .mention _ _ => Nat.le_refl _
  | .assign _ _ hvalue => Nat.le_of_lt (Nat.lt_succ_of_lt hvalue.length_lt)
  | .group _ hinner _ => Nat.le_of_lt (Nat.lt_of_succ_lt hinner.length_lt)
  | .unary _ hoperand => Nat.le_of_lt hoperand.length_lt

theorem Operators.length_le {level : Level} {left e : Expr} {input rest : List Token} :
    Operators level left input e rest → rest.length ≤ input.length
  | .stop _ => Nat.le_refl _
  | .or _ _ hright hrest => Nat.le_trans hrest.length_le (Nat.le_of_lt (Nat.lt_succ_of_lt hright.length_lt))
  | .and _ _ hright hrest => Nat.le_trans hrest.length_le (Nat.le_of_lt (Nat.lt_succ_of_lt hright.length_lt))
  | .binary _ _ hright hrest => Nat.le_trans hrest.length_le (Nat.le_of_lt (Nat.lt_succ_of_lt hright.length_lt))
  | .bareCall _ _ _ hrest => Nat.le_trans hrest.length_le (Nat.le_add_right _ 2)
  | .call _ _ harguments _ hrest =>
    Nat.le_trans hrest.length_le (Nat.le_of_lt (Nat.lt_succ_of_lt (Nat.lt_of_succ_lt harguments.length_lt)))

theorem Arguments.length_lt {input rest : List Token} {es : List Expr} : Arguments input es rest →
    rest.length < input.length
  | .one h => h.length_lt
  | .more h _ hs => Nat.lt_trans hs.length_lt (Nat.lt_of_succ_lt h.length_lt)

end

theorem Applies.length_lt {left e : Expr} {word : Token} {input rest : List Token}
    (h : Applies left word input e rest) :
    rest.length < input.length := by
  cases h with
  | or _ hright => exact hright.length_lt
  | and _ hright => exact hright.length_lt
  | binary _ hright => exact hright.length_lt
  | bareCall => exact Nat.lt_succ_self _
  | call _ harguments => exact Nat.lt_of_succ_lt harguments.length_lt

end Precedence

end Lox
