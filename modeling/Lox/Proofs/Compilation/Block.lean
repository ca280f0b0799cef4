import Lox.Proofs.Compilation.For

/-! # Compiling blocks

A block compiles declarations up to its closing brace, each in the scope after those before it. -/

namespace Lox

/-- A declaration obeys the rules in a function, and there is room for its constants. -/
def Decl.Fits (b : Body) (d : Decl) : Prop :=
  d.Allowed b.isScript b.scope ∧ b.count + (d.code b.scope b.count).constants.length ≤ Chunk.maxConstants

/-- Declarations obey the rules in a function, and there is room for their constants. -/
def Decl.AllFit (b : Body) (ds : List Decl) : Prop :=
  Decl.AllAllowed b.isScript b.scope ds ∧ b.count + (Decl.codes b.scope b.count ds).constants.length ≤
    Chunk.maxConstants

/-- The function under compilation after a declaration. -/
def Body.after (b : Body) (d : Decl) : Body := (b.add (d.code b.scope b.count)).setScope (b.scope.after d.name?)

/-- The function under compilation after some declarations. -/
def Body.afterAll (b : Body) (ds : List Decl) : Body :=
  (b.add (Decl.codes b.scope b.count ds)).setScope (b.scope.afterAll ds)

namespace Body

variable (b : Body) (d : Decl) (ds : List Decl)

theorem count_after : (b.after d).count = b.count + (d.code b.scope b.count).constants.length := by
  rw [after, count_setScope, count_add]

theorem scope_after : (b.after d).scope = b.scope.after d.name? := rfl

theorem isScript_after : (b.after d).isScript = b.isScript := rfl

theorem afterAll_nil : b.afterAll [] = b := by
  rw [afterAll, Decl.codes, add_empty]
  rfl

theorem afterAll_cons : b.afterAll (d :: ds) = (b.after d).afterAll ds := by
  rw [afterAll, afterAll, count_after, scope_after, Decl.codes, ← add_add]
  rfl

end Body

theorem Decl.allFit_cons {b : Body} {d : Decl} {ds : List Decl} :
    Decl.AllFit b (d :: ds) ↔ d.Fits b ∧ Decl.AllFit (b.after d) ds := by
  unfold Decl.AllFit Decl.Fits
  rw [Body.count_after, Body.scope_after, Body.isScript_after]
  simp only [Decl.AllAllowed, Decl.codes, Fragment.constants_append, List.length_append]
  constructor
  · rintro ⟨⟨hd, hds⟩, hroom⟩
    exact ⟨⟨hd, by omega⟩, hds, by omega⟩
  · rintro ⟨⟨hd, -⟩, hds, hroom⟩
    exact ⟨⟨hd, hds⟩, by omega⟩

theorem Decl.Fits.nested {b : Body} {d : Decl} (h : d.Fits b) (hnested : b.scope.Nested) :
    (b.after d).scope.Nested := by
  refine hnested.after fun name hname => ?_
  obtain ⟨hallowed, -⟩ := h
  cases d with
  | var v =>
    cases hname
    exact hallowed.1
  | function name' routine =>
    cases hname
    exact hallowed.1
  | statement s => cases hname

namespace Grammar

/-- Whether a declaration can begin with a word of this kind. -/
def startsDeclaration : Token.Kind → Bool
  | .funWord | .varWord => true
  | kind => startsStatement kind

theorem startsDeclaration_of_startsStatement {kind : Token.Kind} (h : startsStatement kind = true) :
    startsDeclaration kind = true := by
  cases kind <;> first | rfl | cases h

theorem Declaration.starts_cons {token : Token} {input rest : List Token} {d : Decl}
    (h : Declaration (token :: input) d rest) : startsDeclaration token.kind = true := by
  cases h with
  | var hword | function hword =>
    rw [hword]
    rfl
  | statement hs => exact startsDeclaration_of_startsStatement hs.starts_cons

theorem declarations_cons_iff {tokens rest : List Token} {ds : List Decl} {token brace : Token}
    (htoken : token.kind ≠ .rightBrace) (hbrace : brace.kind = .rightBrace) :
    Declarations (token :: tokens) ds (brace :: rest) ↔ ∃ d middle ds', ds = d :: ds' ∧
      Declaration (token :: tokens) d middle ∧ Declarations middle ds' (brace :: rest) := by
  constructor
  · intro h
    cases h with
    | none => exact absurd hbrace htoken
    | more hd hds => exact ⟨_, _, _, rfl, hd, hds⟩
  · rintro ⟨d, middle, ds', rfl, hd, hds⟩
    exact .more hd hds

theorem declarations_nil_iff {tokens rest : List Token} {ds : List Decl} {token brace : Token}
    (htoken : startsDeclaration token.kind = false) :
    Declarations (token :: tokens) ds (brace :: rest) ↔ ds = [] ∧ brace = token ∧ rest = tokens := by
  constructor
  · intro h
    cases h with
    | none => exact ⟨rfl, rfl, rfl⟩
    | more hd =>
      rw [hd.starts_cons] at htoken
      cases htoken
  · rintro ⟨rfl, rfl, rfl⟩
    exact .none

end Grammar

namespace Compiler

variable {expr stmt decl : Compiler → Compiler} {n : Nat} {c : Compiler} {p : Point} {tokens : List Token}
    {line : UInt32}
  {b : Body}

/-- The points after a declaration that begins with the given tokens in a function. -/
def ReadsDecl (tokens : List Token) (b : Body) (q : Point) : Prop :=
  ∃ x : Decl × List Token, (Grammar.Declaration tokens x.1 x.2 ∧ Readable x.2 ∧ x.1.Fits b) ∧
    q = ⟨x.2, x.1.endLine, b.after x.1⟩

/-- The compiler of declarations is right where at most `n` tokens are left, and keeps failures. -/
structure ParsesDecl (decl : Compiler → Compiler) (n : Nat) : Prop where
  reads : ∀ {c : Compiler} {p : Point}, c.At p → p.body.scope.Nested → p.tokens.length ≤ n →
    Outcome (decl c) (ReadsDecl p.tokens p.body)
  failed : ∀ c, c.Failed → (decl c).Failed

/-- What is read of a block, with its closing brace. -/
structure Block where
  declarations : List Decl
  brace : Token
  rest : List Token

/-- The declarations of a block are read in a function. -/
structure ReadsBlock (tokens : List Token) (b : Body) (x : Block) : Prop where
  read : Grammar.Declarations tokens x.declarations (x.brace :: x.rest)
  kind : x.brace.kind = .rightBrace
  readable : Readable x.rest
  fits : Decl.AllFit b x.declarations

theorem At.block (hdecl : ParsesDecl decl n) (fuel : Nat) (h : c.At ⟨tokens, line, b⟩)
    (hnested : b.scope.Nested) (hn : tokens.length ≤ n) (hfuel : tokens.length ≤ fuel) :
    Outcome (block decl c fuel) fun q => ∃ x, ReadsBlock tokens b x ∧
      q = ⟨x.rest, x.brace.line, b.afterAll x.declarations⟩ := by
  induction fuel generalizing c tokens line b with
  | zero =>
    obtain ⟨token, rest, htokens, -, -⟩ := h.exists_tokens
    change tokens = token :: rest at htokens
    rw [htokens] at hfuel
    exact absurd hfuel (Nat.not_succ_le_zero _)
  | succ fuel ih =>
    obtain ⟨token, others, htokens, -, -⟩ := h.exists_tokens
    change tokens = token :: others at htokens
    subst htokens
    unfold Compiler.block
    by_cases hends : (c.sees .rightBrace || c.sees .endOfInput) = true
    · rw [if_pos hends]
      have hnone : Grammar.startsDeclaration token.kind = false := by
        rcases Bool.or_eq_true_iff.mp hends with hsees | hsees <;> rw [(h.sees rfl _).mp hsees] <;> rfl
      refine (h.expect .rightBrace (by decide) .closeBlock).iff fun q => ?_
      constructor
      · rintro ⟨brace, rest, htokens, hkind, hreadable, rfl⟩
        cases htokens
        exact ⟨⟨[], token, others⟩, ⟨.none, hkind, hreadable, trivial, h.room⟩, by rw [Body.afterAll_nil]⟩
      · rintro ⟨⟨ds, brace, rest⟩, ⟨hread, hkind, hreadable, -⟩, rfl⟩
        obtain ⟨rfl, rfl, rfl⟩ := (Grammar.declarations_nil_iff hnone).mp hread
        exact ⟨brace, rest, rfl, hkind, hreadable, by rw [Body.afterAll_nil]⟩
    · rw [if_neg hends]
      have hbrace : token.kind ≠ .rightBrace := fun heq =>
        hends (Bool.or_eq_true_iff.mpr (Or.inl ((h.sees rfl _).mpr heq)))
      have hbind := (hdecl.reads h hnested hn).bindOver
          (fun hf => failed_stable.block hdecl.failed hf fuel) fun x hx hat =>
        have hshorter : x.2.length < (token :: others).length := hx.1.consumes.shorter
        ih hat (hx.2.2.nested hnested) (by omega) (by omega)
      refine hbind.iff fun q => ?_
      constructor
      · rintro ⟨⟨d, middle⟩, ⟨hd, -, hfits⟩, ⟨ds, brace, rest⟩, ⟨hds, hkind, hreadable, hfits'⟩, rfl⟩
        exact ⟨⟨d :: ds, brace, rest⟩, ⟨.more hd hds, hkind, hreadable, Decl.allFit_cons.mpr ⟨hfits, hfits'⟩⟩,
          by rw [Body.afterAll_cons]⟩
      · rintro ⟨⟨ds, brace, rest⟩, ⟨hread, hkind, hreadable, hfits⟩, rfl⟩
        obtain ⟨d, middle, ds', rfl, hd, hds⟩ := (Grammar.declarations_cons_iff hbrace hkind).mp hread
        obtain ⟨hfits, hfits'⟩ := Decl.allFit_cons.mp hfits
        exact ⟨(d, middle), ⟨hd, hds.passes.readable (readable_cons hkind (by decide)), hfits⟩,
          ⟨ds', brace, rest⟩, ⟨hds, hkind, hreadable, hfits'⟩, by rw [Body.afterAll_cons]⟩

theorem statement_block_iff {word : Token} {rest : List Token} {s : Stmt} (hword : word.kind = .leftBrace) :
    Grammar.Statement (word :: tokens) s rest ↔ ∃ ds brace, Grammar.Declarations tokens ds (brace :: rest) ∧
      brace.kind = .rightBrace ∧ s = .block ds brace.line := by
  constructor
  · intro h
    cases h with
    | block _ hds hclose => exact ⟨_, _, hds, hclose, rfl⟩
    | expression he =>
      have hstarts := he.starts_cons
      rw [hword] at hstarts
      cases hstarts
    | print h | bareReturn h | ret h | ifThen h | ifElse h | whileLoop h | forLoop h => simp [hword] at h
  · rintro ⟨ds, brace, hds, hclose, rfl⟩
    exact .block hword hds hclose

theorem At.closeBlock {ds : List Decl} (hnested : b.scope.Nested)
    (h : c.At ⟨tokens, line, (inFor b).afterAll ds⟩) :
    c.closeScope.At ⟨tokens, line, b.add ((Stmt.block ds line).code b.scope b.count)⟩ := by
  have hadded : ∀ loc ∈ (ds.filterMap Decl.name?).reverse.map
      (fun name => (⟨name, some (b.scope.depth + 1)⟩ : Local)), loc.depth = some (b.scope.depth + 1) := by
    intro loc hloc
    obtain ⟨name, -, rfl⟩ := List.mem_map.mp hloc
    rfl
  have hclosed := h.closeScope hnested _ hadded (Scope.afterAll_eq b.scope.inner (Nat.succ_ne_zero _) ds)
  rw [List.length_map, List.length_reverse] at hclosed
  rw [Stmt.code, ← Body.add_add]
  exact hclosed

theorem At.blockStatement {word : Token} {fuel : Nat} (hdecl : ParsesDecl decl n) (h : c.At ⟨tokens, line, b⟩)
    (hnested : b.scope.Nested) (hn : tokens.length ≤ n) (hfuel : tokens.length ≤ fuel)
    (hword : word.kind = .leftBrace) :
    Outcome (Compiler.block decl c.openScope fuel).closeScope (ReadsStmt (word :: tokens) b) := by
  have hbind := (h.openScope.block hdecl fuel hnested.inner hn hfuel).bindOver
    (fun hf => failed_stable.closeScope hf)
    fun x _ hat => (hat.closeBlock hnested).outcome
  refine hbind.iff fun q => ?_
  constructor
  · rintro ⟨⟨ds, brace, rest⟩, ⟨hread, hkind, hreadable, hallowed, hroom⟩, rfl⟩
    refine ⟨(.block ds brace.line, rest), ⟨.block hword hread hkind, hreadable, hallowed, ?_⟩, rfl⟩
    simp only [Stmt.code, Fragment.constants_append, Fragment.constants_pops, List.append_nil]
    exact hroom
  · rintro ⟨⟨s, rest⟩, ⟨hread, hreadable, hallowed, hroom⟩, rfl⟩
    obtain ⟨ds, brace, hds, hkind, rfl⟩ := (statement_block_iff hword).mp hread
    simp only [Stmt.code, Fragment.constants_append, Fragment.constants_pops, List.append_nil] at hroom
    exact ⟨⟨ds, brace, rest⟩, ⟨hds, hkind, hreadable, hallowed, hroom⟩, rfl⟩

/-! ### Statements of any kind -/

/-- A statement of any kind: the word at hand tells which. -/
theorem At.anyStatement {m fuel : Nat} (hexpr : ParsesExpr expr (m + 1)) (hstmt : ParsesStmt stmt m)
    (hdecl : ParsesDecl decl m) (h : c.At p) (hnested : p.body.scope.Nested) (hm : p.tokens.length ≤ m + 1)
    (hfuel : p.tokens.length ≤ fuel) :
    Outcome (anyStatement expr stmt decl fuel c) (ReadsStmt p.tokens p.body) := by
  obtain ⟨tokens, line, b⟩ := p
  obtain ⟨word, others, htokens, hcurrent, -⟩ := h.exists_tokens
  change tokens = word :: others at htokens
  subst htokens
  have hexpr' : ParsesExpr expr m := ⟨fun height hat hn => hexpr.reads height hat (Nat.le_succ_of_le hn),
    hexpr.failed⟩
  have hothers : others.length ≤ m := Nat.le_of_succ_le_succ hm
  -- Each statement with a word of its own begins when the word is accepted.
  have hword : ∀ {d : Compiler}, word.kind ≠ .endOfInput → (c.accept.Failed → d.Failed) →
      (c.accept.At ⟨others, word.line, b⟩ → Outcome d (ReadsStmt (word :: others) b)) →
      Outcome d (ReadsStmt (word :: others) b) := by
    intro d hkind hfailed hnext
    refine ((h.accept rfl hkind).bindGuard hfailed fun _ hat => hnext hat).iff fun q => ?_
    constructor
    · exact fun hq => hq.2
    · rintro ⟨x, ⟨hread, hreadable, hfits⟩, hq⟩
      exact ⟨hread.consumes.tail.2.readable hreadable, x, ⟨hread, hreadable, hfits⟩, hq⟩
  unfold Compiler.anyStatement
  rw [hcurrent]
  split <;> rename_i hkind
  · exact hword (by rw [hkind]; decide)
      (fun hf => failed_stable.emit (failed_stable.expect (hexpr.failed _ hf) _ _) _)
      fun hat => hat.printStatement hexpr' hothers hkind
  · exact hword (by rw [hkind]; decide) (failed_stable.forStatement hexpr.failed hstmt.failed)
      fun hat => hat.forStatement hexpr' hstmt hnested hothers hkind
  · exact hword (by rw [hkind]; decide) (failed_stable.ifStatement hexpr.failed hstmt.failed)
      fun hat => hat.ifStatement hexpr' hstmt hnested hothers hkind
  · exact hword (by rw [hkind]; decide) (failed_stable.returnStatement hexpr.failed)
      fun hat => hat.returnStatement hexpr' hothers hkind
  · exact hword (by rw [hkind]; decide) (failed_stable.whileStatement hexpr.failed hstmt.failed)
      fun hat => hat.whileStatement hexpr' hstmt hnested hothers hkind
  · exact hword (by rw [hkind]; decide)
      (fun hf => failed_stable.closeScope (failed_stable.block hdecl.failed (failed_stable.openScope hf) fuel))
      fun hat => hat.blockStatement hdecl hnested hothers (Nat.le_of_succ_le hfuel) hkind
  · refine h.expressionStatement hexpr hm fun hstarts => ?_
    unfold Grammar.startsStatement at hstarts
    split at hstarts <;> simp_all

end Compiler

end Lox
