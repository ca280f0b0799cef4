import Lox.Proofs.Compilation.Statement

/-! # Compiling declarations of variables

A variable is declared before its initial value is compiled and defined after it. In a scope, the value
stays on the stack as the new local; outside all scopes, an instruction moves it to the global that the
first constant names. -/

namespace Lox

/-- The declaration of a variable obeys the rules in a function, and there is room for its constants. -/
def Variable.Fits (b : Body) (v : Variable) : Prop :=
  v.Allowed b.scope ∧ b.count + (v.code b.scope b.count).constants.length ≤ Chunk.maxConstants

namespace Body

theorem begin_of_global {b : Body} (name : String) (h : b.depth = 0) :
    b.begin name = b.add (.pool (.string name)) := by
  rw [begin, declare, if_pos h, if_pos h]

theorem begin_of_local {b : Body} (name : String) (h : b.depth ≠ 0) :
    b.begin name = { b with locals := ⟨name, none⟩ :: b.locals } := by
  rw [begin, declare, if_neg h, if_neg h, add_empty]

end Body

namespace Scope

theorem declare_of_global {scope : Scope} (name : String) (h : scope.depth = 0) :
    scope.declare name = scope := if_pos h

end Scope

namespace Compiler

variable {expr : Compiler → Compiler} {n : Nat} {c : Compiler} {p : Point} {tokens : List Token}
    {line : UInt32} {b : Body}

theorem variableDecl_iff {rest : List Token} {v : Variable} :
    Grammar.VariableDecl tokens v rest ↔ ∃ name input, tokens = name :: input ∧ name.kind = .identifier ∧
      ((∃ semicolon, input = semicolon :: rest ∧ semicolon.kind = .semicolon ∧
        v = ⟨name.lexeme, name.line, none, semicolon.line⟩) ∨
      ∃ equal middle e semicolon, input = equal :: middle ∧ equal.kind = .equal ∧
        Grammar.Expression .assignment middle e (semicolon :: rest) ∧ semicolon.kind = .semicolon ∧
        v = ⟨name.lexeme, name.line, some e, semicolon.line⟩) := by
  constructor
  · intro h
    cases h with
    | bare hname hsemicolon => exact ⟨_, _, rfl, hname, Or.inl ⟨_, rfl, hsemicolon, rfl⟩⟩
    | initial hname hequal he hsemicolon =>
      exact ⟨_, _, rfl, hname, Or.inr ⟨_, _, _, _, rfl, hequal, he, hsemicolon, rfl⟩⟩
  · rintro ⟨name, input, rfl, hname, ⟨semicolon, rfl, hsemicolon, rfl⟩ |
        ⟨equal, middle, e, semicolon, rfl, hequal, he,
      hsemicolon, rfl⟩⟩
    · exact .bare hname hsemicolon
    · exact .initial hname hequal he hsemicolon

/-- The initial value of a variable, up to its semicolon. -/
def initialValue (expr : Compiler → Compiler) (c : Compiler) : Compiler :=
  (if c.sees .equal then expr c.accept else c.emit .nil).expect .semicolon .endVariable

theorem Failed.initialValue (hexpr : ParsesExpr expr n) (h : c.Failed) : (initialValue expr c).Failed := by
  unfold Compiler.initialValue
  refine failed_stable.expect ?_ _ _
  split
  · exact hexpr.failed _ (failed_stable.accept _ h)
  · exact failed_stable.emit h _

theorem At.initialValue (hexpr : ParsesExpr expr n) (h : c.At ⟨tokens, line, b⟩) (hn : tokens.length ≤ n)
    (height : Nat) :
    Outcome (initialValue expr c) fun q =>
      (∃ semicolon rest, tokens = semicolon :: rest ∧ semicolon.kind = .semicolon ∧ Readable rest ∧
        q = ⟨rest, semicolon.line, b.add (.single line height .nil)⟩) ∨
      ∃ equal input x, tokens = equal :: input ∧ equal.kind = .equal ∧ ReadsClosed .semicolon input b height x ∧
        q = x.point b height := by
  obtain ⟨token, others, htokens, -, -⟩ := h.exists_tokens
  change tokens = token :: others at htokens
  subst htokens
  unfold Compiler.initialValue
  by_cases hsees : c.sees .equal = true
  · rw [if_pos hsees]
    have hequal : token.kind = .equal := (h.sees rfl _).mp hsees
    have hbind := (h.accept rfl (hequal ▸ by decide)).bindGuard
      (fun hf => failed_stable.expect (hexpr.failed _ hf) .semicolon .endVariable)
      fun _ hat => hat.closedExpr hexpr (Nat.le_of_succ_le hn) height .semicolon rfl .endVariable
    refine hbind.iff fun q => ?_
    constructor
    · rintro ⟨-, x, hx, rfl⟩
      exact Or.inr ⟨token, others, x, rfl, hequal, hx, rfl⟩
    · rintro (⟨semicolon, rest, heq, hkind, -⟩ | ⟨_, _, x, heq, -, hx, rfl⟩)
      · cases heq
        exact absurd (hequal.symm.trans hkind) (by decide)
      · cases heq
        exact ⟨hx.read.consumes.readable, x, hx, rfl⟩
  · rw [if_neg hsees]
    have hemit := h.emit .nil height
    refine (hemit.expect .semicolon (by decide) .endVariable).iff fun q => ?_
    constructor
    · rintro ⟨semicolon, rest, htokens, hkind, hreadable, rfl⟩
      exact Or.inl ⟨semicolon, rest, htokens, hkind, hreadable, rfl⟩
    · rintro (⟨semicolon, rest, htokens, hkind, hreadable, rfl⟩ | ⟨equal, input, x, htokens, hequal, -, -⟩)
      · exact ⟨semicolon, rest, htokens, hkind, hreadable, rfl⟩
      · exact absurd ((h.sees htokens _).mpr hequal) hsees

/-- A declaration that begins with a name is read, and its initial value obeys the rules and finds room. -/
structure ReadsInitial (name : Token) (tokens : List Token) (b : Body) (height : Nat)
    (x : Variable × List Token) : Prop
    where
  read : Grammar.VariableDecl (name :: tokens) x.1 x.2
  readable : Readable x.2
  allowed : ∀ e ∈ x.1.value, e.Allowed b.locals
  room : b.count + (x.1.valueCode b.locals b.count height).constants.length ≤ Chunk.maxConstants

theorem ReadsInitial.name_eq {name : Token} {height : Nat} {x : Variable × List Token}
    (h : ReadsInitial name tokens b height x) : x.1.name = name.lexeme := by
  obtain ⟨hread, -⟩ := h
  obtain ⟨_, _, heq, -, ⟨_, -, -, hx⟩ | ⟨_, _, _, _, -, -, -, -, hx⟩⟩ := variableDecl_iff.mp hread <;>
    cases heq <;> rw [hx]

theorem At.readsInitial {name : Token} (hexpr : ParsesExpr expr n) (h : c.At ⟨tokens, name.line, b⟩)
    (hname : name.kind = .identifier) (hn : tokens.length ≤ n) (height : Nat) :
    Outcome (Compiler.initialValue expr c) fun q => ∃ x, ReadsInitial name tokens b height x ∧
      q = ⟨x.2, x.1.line, b.add (x.1.valueCode b.locals b.count height)⟩ := by
  refine (h.initialValue hexpr hn height).iff fun q => ?_
  constructor
  · rintro (⟨semicolon, rest, rfl, hkind, hreadable, rfl⟩ | ⟨equal, input, ⟨e, semicolon, rest⟩, rfl, hequal,
      ⟨he, hkind, hreadable, hallowed, hroom⟩, rfl⟩)
    · refine ⟨(⟨name.lexeme, name.line, none, semicolon.line⟩, rest),
        ⟨.bare hname hkind, hreadable, fun e he => ?_, h.room⟩, rfl⟩
      cases he
    · refine ⟨(⟨name.lexeme, name.line, some e, semicolon.line⟩, rest),
        ⟨.initial hname hequal he hkind, hreadable,
        fun e' he' => ?_, hroom⟩, rfl⟩
      cases he'
      exact hallowed
  · rintro ⟨⟨v, rest⟩, ⟨hread, hreadable, hallowed, hroom⟩, rfl⟩
    obtain ⟨_, _, heq, -, ⟨semicolon, rfl, hkind, rfl⟩ |
          ⟨equal, input, e, semicolon, rfl, hequal, he, hkind, rfl⟩⟩ :=
      variableDecl_iff.mp hread
    · cases heq
      exact Or.inl ⟨semicolon, rest, rfl, hkind, hreadable, rfl⟩
    · cases heq
      exact Or.inr ⟨equal, input, ⟨e, semicolon, rest⟩, rfl, hequal,
        ⟨he, hkind, hreadable, hallowed e rfl, hroom⟩, rfl⟩

/-- Completing the declaration of a variable whose value was computed by `f`. -/
theorem At.define {f : Fragment} {name : String} {global : UInt8}
    (h : c.At ⟨tokens, line, (b.begin name).add f⟩)
    (hglobal : b.depth = 0 → global = operandByte b.count) (height : Nat) :
    (c.define global).At ⟨tokens, line, (b.add (if b.depth = 0 then .pool (.string name) ++ f ++
      .single line (height + 1) (.defineGlobal (operandByte b.count)) else f)).setScope
        (b.scope.declare name)⟩ := by
  have hdepth' : ((b.begin name).add f).depth = b.depth := by
    rw [Body.depth_add, Body.begin, Body.depth_add, Body.depth_declare]
  unfold Compiler.define
  rw [h.body]
  by_cases hdepth : b.depth = 0
  · have hemit := h.emit (.defineGlobal (operandByte b.count)) (height + 1)
    rw [if_neg (by rw [hdepth', hdepth]; decide), if_pos hdepth, hglobal hdepth,
      Scope.declare_of_global name hdepth]
    simpa [Point.add, Body.begin_of_global name hdepth, Body.add_add] using hemit
  · rw [if_pos (by rw [hdepth']; exact Nat.pos_of_ne_zero hdepth), if_neg hdepth]
    refine h.completeLocal ?_
    rw [Body.begin_of_local name hdepth, ← Body.add_declare, Body.declare, if_neg hdepth]

/-- A name is accepted and declared. -/
structure ReadsName (tokens : List Token) (b : Body) (x : Token × List Token) : Prop where
  tokens : tokens = x.1 :: x.2
  kind : x.1.kind = .identifier
  readable : Readable x.2
  admits : b.scope.Admits x.1.lexeme
  room : b.depth = 0 → b.count < Chunk.maxConstants

theorem ReadsName.length_le {x : Token × List Token} (h : ReadsName tokens b x) :
    x.2.length ≤ tokens.length := by
  rw [h.tokens]
  exact Nat.le_succ _

theorem declares_iff {q : Point} : Declares p q ↔ ∃ x, ReadsName p.tokens p.body x ∧
    q = ⟨x.2, x.1.line, p.body.begin x.1.lexeme⟩ := by
  constructor
  · rintro ⟨token, rest, htokens, hkind, hreadable, hadmits, hroom, rfl⟩
    exact ⟨(token, rest), ⟨htokens, hkind, hreadable, hadmits, hroom⟩, rfl⟩
  · rintro ⟨x, ⟨htokens, hkind, hreadable, hadmits, hroom⟩, rfl⟩
    exact ⟨x.1, x.2, htokens, hkind, hreadable, hadmits, hroom, rfl⟩

theorem Outcome.declares (h : Outcome c (Declares p)) : Outcome c fun q => ∃ x, ReadsName p.tokens p.body x ∧
    q = ⟨x.2, x.1.line, p.body.begin x.1.lexeme⟩ :=
  h.iff fun _ => declares_iff

/-- The points after the declaration of a variable, after its word. -/
def ReadsVariable (tokens : List Token) (b : Body) (q : Point) : Prop :=
  ∃ x : Variable × List Token, (Grammar.VariableDecl tokens x.1 x.2 ∧ Readable x.2 ∧ x.1.Fits b) ∧
    q = ⟨x.2, x.1.line, (b.add (x.1.code b.scope b.count)).setScope (b.scope.declare x.1.name)⟩

/-- The code of the declaration of a variable around that of its initial value. -/
theorem code_variable (b : Body) (v : Variable) :
    v.code b.scope b.count = if b.depth = 0 then .pool (.string v.name) ++
      v.valueCode (b.begin v.name).locals (b.begin v.name).count b.scope.height ++
        .single v.line (b.scope.height + 1) (.defineGlobal (operandByte b.count))
      else v.valueCode (b.begin v.name).locals (b.begin v.name).count b.scope.height := by
  unfold Variable.code
  rw [Body.depth_scope]
  by_cases hdepth : b.depth = 0
  · rw [if_pos hdepth, if_pos hdepth, Body.begin_of_global _ hdepth, Body.count_add]
    rfl
  · rw [if_neg hdepth, if_neg hdepth, Body.begin_of_local _ hdepth]
    rfl

theorem fits_variable {v : Variable} : v.Fits b ↔ b.scope.Admits v.name ∧
    (b.depth = 0 → b.count < Chunk.maxConstants) ∧
    (b.begin v.name).count + (v.valueCode (b.begin v.name).locals (b.begin v.name).count
      b.scope.height).constants.length ≤ Chunk.maxConstants ∧ ∀ e ∈ v.value,
      e.Allowed (b.begin v.name).locals := by
  unfold Variable.Fits Variable.Allowed
  rw [code_variable]
  by_cases hdepth : b.depth = 0
  · have hlocals : (b.begin v.name).locals = b.locals := by
      rw [Body.begin_of_global _ hdepth]
      rfl
    have hcount : (b.begin v.name).count = b.count + 1 := by
      rw [Body.begin_of_global _ hdepth, Body.count_add]
      rfl
    simp only [Body.depth_scope, hdepth, if_true, hlocals, hcount, Fragment.constants_append,
      Fragment.constants_pool,
      Fragment.constants_single, List.length_append, List.length_cons, List.length_nil, Body.locals_scope,
      true_implies]
    constructor
    · rintro ⟨⟨hadmits, hallowed⟩, hroom⟩
      exact ⟨hadmits, by omega, by omega, hallowed⟩
    · rintro ⟨hadmits, -, hroom, hallowed⟩
      exact ⟨⟨hadmits, hallowed⟩, by omega⟩
  · have hlocals : (b.begin v.name).locals = ⟨v.name, none⟩ :: b.locals := by
      rw [Body.begin_of_local _ hdepth]
    have hcount : (b.begin v.name).count = b.count := by
      rw [Body.begin_of_local _ hdepth]
      rfl
    simp only [Body.depth_scope, hdepth, if_false, hlocals, hcount, Body.locals_scope, false_implies, true_and]
    constructor
    · rintro ⟨⟨hadmits, hallowed⟩, hroom⟩
      exact ⟨hadmits, hroom, hallowed⟩
    · rintro ⟨hadmits, hroom, hallowed⟩
      exact ⟨⟨hadmits, hallowed⟩, hroom⟩

theorem At.varDeclaration (hexpr : ParsesExpr expr n) (h : c.At ⟨tokens, line, b⟩) (hnested : b.scope.Nested)
    (hn : tokens.length ≤ n) : Outcome (varDeclaration expr c) (ReadsVariable tokens b) := by
  have hbind := (h.declareName hnested .variableName).declares.bindOver (d := Compiler.varDeclaration expr c)
    (fun hf => failed_stable.define (hf.initialValue hexpr) _) fun x hx hat =>
      (hat.readsInitial hexpr hx.kind (Nat.le_trans hx.length_le hn) b.scope.height).bindOver
        (fun hf => failed_stable.define hf _) fun _ _ hat' => (hat'.define
          (fun hdepth => h.declareName_index (declares_iff.mpr ⟨x, hx, rfl⟩) hdepth .variableName)
            b.scope.height).outcome
  refine hbind.iff fun q => ?_
  constructor
  · rintro ⟨⟨name, input⟩, ⟨rfl, hname, hreadable', hadmits, hroom'⟩, ⟨v, rest⟩, hinitial, rfl⟩
    have heq := hinitial.name_eq
    obtain ⟨hread, hreadable, hallowed, hroom⟩ := hinitial
    dsimp only at heq
    refine ⟨(v, rest), ⟨hread, hreadable, fits_variable.mpr ?_⟩, ?_⟩
    · rw [heq]
      exact ⟨hadmits, hroom', hroom, hallowed⟩
    · rw [code_variable, heq]
  · rintro ⟨⟨v, rest⟩, ⟨hread, hreadable, hfits⟩, rfl⟩
    obtain ⟨hadmits, hroom', hroom, hallowed⟩ := fits_variable.mp hfits
    obtain ⟨name, input, rfl, hname, hcases⟩ := variableDecl_iff.mp hread
    have heq : v.name = name.lexeme := by
      rcases hcases with ⟨_, -, -, rfl⟩ | ⟨_, _, _, _, -, -, -, -, rfl⟩ <;> rfl
    have hinput := (hread.consumes.tail.2).readable hreadable
    rw [heq] at hadmits hroom hallowed
    refine ⟨(name, input), ⟨rfl, hname, hinput, hadmits, hroom'⟩, (v, rest),
      ⟨hread, hreadable, hallowed, hroom⟩, ?_⟩
    rw [code_variable, heq]

end Compiler

end Lox
