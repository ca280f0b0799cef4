import Lox.Compile
import Lox.Proofs.Compilation.Function

/-! # Compiling programs

The compilers of statements and declarations, tied together with fuel, are right wherever the fuel is enough
for the tokens that are left. From this follows what a compilation gives: a text compiles exactly if its
tokens form a program that obeys the static rules, and its script is then the function of that program. -/

namespace Lox

namespace Compiler

variable {expr stmt decl : Compiler → Compiler} {n : Nat} {c : Compiler} {p : Point} {tokens : List Token}
    {line : UInt32}
  {b : Body}

/-! ### Declarations of any kind -/

theorem recover_of_calm (h : c.panicking = false) (fuel : Nat) : c.recover fuel = c := by
  rw [Compiler.recover, h]
  rfl

theorem Outcome.recover {T : Point → Prop} (h : Outcome c T) (fuel : Nat) : Outcome (c.recover fuel) T := by
  refine ⟨fun q hq => ?_, h.2.imp (fun hf => failed_stable.recover hf fuel) id⟩
  rw [recover_of_calm (h.1 q hq).calm]
  exact h.1 q hq

theorem declaration_var_iff {word : Token} {rest : List Token} {d : Decl} (hword : word.kind = .varWord) :
    Grammar.Declaration (word :: tokens) d rest ↔ ∃ v, Grammar.VariableDecl tokens v rest ∧ d = .var v := by
  constructor
  · intro h
    cases h with
    | var _ hv => exact ⟨_, hv, rfl⟩
    | function h => exact absurd (hword.symm.trans h) (by decide)
    | statement hs =>
      have hstarts := hs.starts_cons
      rw [hword] at hstarts
      cases hstarts
  · rintro ⟨v, hv, rfl⟩
    exact .var hword hv

theorem declaration_statement_iff {word : Token} {rest : List Token} {d : Decl} (hfun : word.kind ≠ .funWord)
    (hvar : word.kind ≠ .varWord) : Grammar.Declaration (word :: tokens) d rest ↔
      ∃ s, Grammar.Statement (word :: tokens) s rest ∧ d = .statement s := by
  constructor
  · intro h
    cases h with
    | var h => exact absurd h hvar
    | function h => exact absurd h hfun
    | statement hs => exact ⟨_, hs, rfl⟩
  · rintro ⟨s, hs, rfl⟩
    exact .statement hs

/-- A declaration of any kind: the word at hand tells which. -/
theorem At.anyDeclaration {m fuel : Nat} (hexpr : ParsesExpr expr m) (hstmt : ParsesStmt stmt (m + 1))
    (hdecl : ParsesDecl decl m) (h : c.At p) (hnested : p.body.scope.Nested) (hm : p.tokens.length ≤ m + 1)
    (hfuel : p.tokens.length ≤ fuel) :
    Outcome (anyDeclaration expr stmt decl fuel c) (ReadsDecl p.tokens p.body) := by
  obtain ⟨tokens, line, b⟩ := p
  obtain ⟨word, others, htokens, hcurrent, -⟩ := h.exists_tokens
  change tokens = word :: others at htokens
  subst htokens
  have hothers : others.length ≤ m := Nat.le_of_succ_le_succ hm
  unfold Compiler.anyDeclaration
  refine Outcome.recover ?_ fuel
  rw [hcurrent]
  split <;> rename_i hkind
  · have hbind := (h.accept rfl (hkind ▸ by decide)).bindGuard
      (fun hf => failed_stable.funDeclaration hdecl.failed hf fuel)
      fun _ hat => hat.funDeclaration hdecl hnested hothers (Nat.le_of_succ_le hfuel) hkind
    refine hbind.iff fun q => ⟨And.right, fun hq => ⟨?_, hq⟩⟩
    obtain ⟨x, ⟨hread, hreadable, -⟩, -⟩ := hq
    exact hread.consumes.tail.2.readable hreadable
  · have hbind := (h.accept rfl (hkind ▸ by decide)).bindGuard
      (fun hf => failed_stable.varDeclaration hexpr.failed hf)
      fun _ hat => hat.varDeclaration hexpr hnested hothers
    refine hbind.iff fun q => ?_
    constructor
    · rintro ⟨-, ⟨v, rest⟩, ⟨hread, hreadable, hfits⟩, rfl⟩
      exact ⟨(.var v, rest), ⟨.var hkind hread, hreadable, hfits⟩, rfl⟩
    · rintro ⟨⟨d, rest⟩, ⟨hread, hreadable, hfits⟩, rfl⟩
      obtain ⟨v, hv, rfl⟩ := (declaration_var_iff hkind).mp hread
      exact ⟨hv.consumes.readable, (v, rest), ⟨hv, hreadable, hfits⟩, rfl⟩
  · refine (hstmt.reads h hnested hm).iff fun q => ?_
    constructor
    · rintro ⟨⟨s, rest⟩, ⟨hread, hreadable, hfits⟩, rfl⟩
      exact ⟨(.statement s, rest), ⟨.statement hread, hreadable, hfits⟩, rfl⟩
    · rintro ⟨⟨d, rest⟩, ⟨hread, hreadable, hfits⟩, rfl⟩
      obtain ⟨s, hs, rfl⟩ :=
        (declaration_statement_iff (fun heq => by simp_all) (fun heq => by simp_all)).mp hread
      exact ⟨(s, rest), ⟨hs, hreadable, hfits⟩, rfl⟩

/-! ### Fuel -/

theorem parsesExpr_expression {fuel : Nat} (h : n ≤ fuel) : ParsesExpr (expression fuel .assignment) n :=
  ⟨fun height hat hn => (parses_expression fuel).reads .assignment height (by decide) hat (Nat.le_trans hn h),
    (parses_expression fuel).failed .assignment⟩

/-- Two steps of fuel for every token that is left are enough: the first leads from a declaration to a
    statement, and the second past a token. -/
theorem parses_statement_declaration (fuel : Nat) : ∀ n,
    (2 * n + 1 ≤ fuel → ParsesStmt (statement fuel) n) ∧
      (2 * n + 2 ≤ fuel → ParsesDecl (declaration fuel) n) := by
  induction fuel with
  | zero => exact fun n =>
    ⟨fun h => absurd h (Nat.not_succ_le_zero _), fun h => absurd h (Nat.not_succ_le_zero _)⟩
  | succ fuel ih =>
    intro n
    constructor
    · intro hfuel
      refine ⟨fun {c p} h hnested hn => ?_, (failed_stable.statement_declaration _).1⟩
      cases n with
      | zero =>
        rw [← h.tokens] at hn
        exact absurd hn (Nat.not_succ_le_zero _)
      | succ n =>
        rw [Compiler.statement]
        exact h.anyStatement (parsesExpr_expression (by omega)) ((ih n).1 (by omega))
          ((ih n).2 (by omega)) hnested hn
          (by omega)
    · intro hfuel
      refine ⟨fun {c p} h hnested hn => ?_, (failed_stable.statement_declaration _).2⟩
      cases n with
      | zero =>
        rw [← h.tokens] at hn
        exact absurd hn (Nat.not_succ_le_zero _)
      | succ n =>
        rw [Compiler.declaration]
        exact h.anyDeclaration (parsesExpr_expression (by omega)) ((ih (n + 1)).1 (by omega))
          ((ih n).2 (by omega)) hnested hn
          (by omega)

/-! ### Whole programs -/

theorem At.acceptLast (h : c.At ⟨tokens, line, b⟩) (hsees : c.sees .endOfInput = true) :
    tokens = [c.current] ∧ c.current.kind = .endOfInput ∧ c.accept.At ⟨[c.current], c.current.line, b⟩ := by
  have hkind : c.current.kind = .endOfInput := by simpa [Compiler.sees] using hsees
  have hends : Ends (c.current :: c.rest) := by
    rw [h.tokens]
    exact h.ends
  have hrest : c.rest = [] := hends.eq_nil hkind
  have htokens : tokens = [c.current] := by rw [← hrest]; exact h.tokens.symm
  refine ⟨htokens, hkind, ?_⟩
  rw [Compiler.accept, hrest]
  exact ⟨h.clean, h.calm, rfl, rfl, h.body, h.readable, hkind, h.room⟩

theorem At.program {fuel : Nat} (count : Nat) (h : c.At ⟨tokens, line, b⟩) (hnested : b.scope.Nested)
    (hfuel : 2 * tokens.length + 2 ≤ fuel) (hcount : tokens.length ≤ count) :
    Outcome (program fuel c count) fun q => ∃ x : List Decl × Token,
      (Grammar.Declarations tokens x.1 [x.2] ∧ x.2.kind = .endOfInput ∧ Decl.AllFit b x.1) ∧
        q = ⟨[x.2], x.2.line, b.afterAll x.1⟩ := by
  induction count generalizing c tokens line b with
  | zero =>
    have htokens := congrArg List.length h.tokens
    exact absurd (Nat.le_trans (Nat.le_of_eq htokens) hcount) (Nat.not_succ_le_zero _)
  | succ count ih =>
    unfold Compiler.program
    by_cases hsees : c.sees .endOfInput = true
    · obtain ⟨rfl, hkind, hat⟩ := h.acceptLast hsees
      rw [if_pos hsees]
      refine hat.outcome.iff fun q => ?_
      constructor
      · rintro rfl
        exact ⟨([], c.current), ⟨.none, hkind, trivial, h.room⟩, by rw [Body.afterAll_nil]⟩
      · rintro ⟨⟨ds, last⟩, ⟨hds, -, -⟩, rfl⟩
        obtain ⟨rfl, rfl, -⟩ := (Grammar.declarations_nil_iff (by rw [hkind]; rfl)).mp hds
        rw [Body.afterAll_nil]
    · rw [if_neg hsees]
      have hparses := (parses_statement_declaration fuel tokens.length).2 hfuel
      have hbind := (hparses.reads h hnested (Nat.le_refl _)).bindOver
        (fun hf => failed_stable.program hf fuel count)
        fun x hx hat =>
          have hshorter : x.2.length < tokens.length := hx.1.consumes.shorter
          ih hat (hx.2.2.nested hnested) (by omega) (by omega)
      refine hbind.iff fun q => ?_
      constructor
      · rintro ⟨⟨d, middle⟩, ⟨hd, -, hfits⟩, ⟨ds, last⟩, ⟨hds, hlast, hfits'⟩, rfl⟩
        exact ⟨(d :: ds, last), ⟨.more hd hds, hlast,
          Decl.allFit_cons.mpr ⟨hfits, hfits'⟩⟩, by rw [Body.afterAll_cons]⟩
      · rintro ⟨⟨ds, last⟩, ⟨hds, hlast, hfits⟩, rfl⟩
        cases hds with
        | none => exact absurd ((h.sees rfl _).mpr hlast) hsees
        | more hd hds =>
          obtain ⟨hfits, hfits'⟩ := Decl.allFit_cons.mp hfits
          exact ⟨(_, _), ⟨hd, hds.passes.readable (readable_cons hlast (by decide)), hfits⟩, (_, last),
            ⟨hds, hlast, hfits'⟩, by rw [Body.afterAll_cons]⟩

/-- The compilation before its first token, which has to be readable. -/
theorem outcome_start (hends : Ends tokens) : Outcome (start tokens).accept fun q =>
    Readable tokens ∧ q = ⟨tokens, Token.unread.line, .start true none⟩ := by
  cases tokens with
  | nil => exact absurd hends id
  | cons token tokens =>
    unfold Compiler.accept Compiler.start
    rw [Compiler.shift]
    split <;> rename_i herror
    · have hfailed := failed_reportAt (c := { start (token :: tokens) with previous := .unread }) rfl token
        (.lexical token.lexeme)
      exact (hfailed.shift tokens).outcome fun q hq => hq.1 token rfl herror
    · have hat : { start (token :: tokens) with previous := .unread, current := token, rest := tokens }.At
          ⟨token :: tokens, Token.unread.line, .start true none⟩ :=
        ⟨rfl, rfl, rfl, rfl, rfl, herror, hends, Nat.zero_le _⟩
      exact hat.outcome.iff fun q => ⟨fun hq => ⟨readable_cons rfl herror, hq⟩, And.right⟩

theorem nested_start : (Body.start true none).scope.Nested := ⟨⟨0, Nat.le_refl _, rfl, trivial⟩, by decide⟩

/-- The script of a program is what was compiled for it, with a return at its end. -/
theorem function_program (ds : List Decl) (place : Nat) (line : UInt32) :
    (((Body.start true none).afterAll ds).add
      (.single line ((Scope.ofRoutine none []).afterAll ds).height .nil ++
      .single line (((Scope.ofRoutine none []).afterAll ds).height + 1) .ret)).function =
      (Routine.mk place [] ds line).function none := by
  rw [Body.afterAll, Body.add_setScope, Body.add_add, ← Fragment.append_assoc]
  simp [Body.start, Body.add, Body.setScope, Chunk.add, Routine.function, Body.scope, Body.count,
    Scope.ofRoutine]

theorem allowed_program {ds : List Decl} {place : Nat} {line : UInt32} :
    (Routine.mk place [] ds line).Allowed none ↔ Decl.AllFit (.start true none) ds := by
  rw [Routine.Allowed, Decl.AllFit]
  have hcount : (Body.start true none).count = 0 := rfl
  rw [hcount, Nat.zero_add]
  exact ⟨fun h => h.2.2, fun h => ⟨Nat.zero_le _, List.nodup_nil, h⟩⟩

end Compiler

theorem Grammar.program_iff {tokens : List Token} {r : Routine} : Grammar.Program tokens r ↔ ∃ ds last,
    Grammar.Declarations tokens ds [last] ∧ last.kind = .endOfInput ∧
      r = ⟨tokens.length, [], ds, last.line⟩ := by
  constructor
  · rintro ⟨hds, hlast⟩
    exact ⟨_, _, hds, hlast, rfl⟩
  · rintro ⟨ds, last, hds, hlast, rfl⟩
    exact ⟨hds, hlast⟩

/-- The compilation of some tokens before its last function is completed. -/
def compiled (tokens : List Token) : Compiler :=
  (Compiler.start tokens).accept.program (2 * tokens.length + 4) (2 * tokens.length + 4)

theorem result_compileTokens (tokens : List Token) : (compileTokens tokens).result =
    if (compiled tokens).finish.2.diagnostics.isEmpty then .ok (compiled tokens).finish.1
    else .error (compiled tokens).finish.2.diagnostics.toList := rfl

theorem outcome_compiled {tokens : List Token} (hends : Ends tokens) : (compiled tokens).Outcome fun q =>
    Readable tokens ∧ ∃ x : List Decl × Token, (Grammar.Declarations tokens x.1 [x.2] ∧ x.2.kind = .endOfInput ∧
      Decl.AllFit (.start true none) x.1) ∧ q = ⟨[x.2], x.2.line, (Body.start true none).afterAll x.1⟩ :=
  (Compiler.outcome_start hends).bindGuard (fun hf => Compiler.failed_stable.program hf _ _)
    fun _ hat => hat.program _ Compiler.nested_start (by omega) (by omega)

/-- Tokens compile exactly to the functions of the programs that they form and that obey the rules. -/
theorem compileTokens_iff {tokens : List Token} (hends : Ends tokens) (f : Function) :
    (compileTokens tokens).result = .ok f ↔ ∃ r, Grammar.Program tokens r ∧ r.Allowed none ∧
      f = r.function none := by
  obtain ⟨hat, hfailed⟩ := outcome_compiled hends
  have hok : ∀ ds last, Grammar.Declarations tokens ds [last] → last.kind = .endOfInput →
      Decl.AllFit (.start true none) ds →
      (compileTokens tokens).result = .ok ((Routine.mk tokens.length [] ds last.line).function none) := by
    intro ds last hds hlast hfits
    have hreadable : Readable tokens := hds.passes.readable (readable_cons hlast (by decide))
    obtain ⟨hfunction, hclean⟩ := (hat _ ⟨hreadable, (ds, last), ⟨hds, hlast, hfits⟩, rfl⟩).finish
      ((Scope.ofRoutine none []).afterAll ds).height
    have hempty := (hclean (.start true none) (Nat.zero_le _)).clean
    dsimp only at hempty
    rw [result_compileTokens, hempty, hfunction, Compiler.function_program ds tokens.length]
    rfl
  constructor
  · intro hresult
    rcases hfailed with hf | ⟨q, -, ⟨ds, last⟩, ⟨hds, hlast, hfits⟩, -⟩
    · have hf' : (compiled tokens).finish.2.diagnostics ≠ #[] := Compiler.failed_stable.finish hf
      rw [result_compileTokens, if_neg (by simpa using hf')] at hresult
      cases hresult
    · have heq := hok ds last hds hlast hfits
      rw [hresult] at heq
      cases heq
      exact ⟨_, ⟨hds, hlast⟩, Compiler.allowed_program.mpr hfits, rfl⟩
  · rintro ⟨r, hprogram, hallowed, rfl⟩
    obtain ⟨ds, last, hds, hlast, rfl⟩ := Grammar.program_iff.mp hprogram
    exact hok ds last hds hlast (Compiler.allowed_program.mp hallowed)

/-- The tokens of a program have no lexical error among them. -/
theorem Grammar.Program.readable {tokens : List Token} {r : Routine} (h : Grammar.Program tokens r) :
    ∀ token ∈ tokens, token.kind ≠ .error := by
  obtain ⟨ds, last, hds, hlast, -⟩ := Grammar.program_iff.mp h
  obtain ⟨taken, rfl, htaken⟩ := hds.passes
  intro token hmem
  rcases List.mem_append.mp hmem with hmem | hmem
  · exact htaken token hmem
  · rw [List.mem_singleton.mp hmem, hlast]
    decide

theorem compile_iff_program (source : String) (f : Function) :
    compile source = .ok f ↔ ∃ r, Grammar.Program (Token.scan source) r ∧ r.Allowed none ∧
      f = r.function none :=
  compileTokens_iff (Token.ends_scan source) f

/-- A text compiles exactly if none of its tokens is a lexical error, they derive a program in the grammar,
    and the program obeys the static rules; what it compiles to is the code of the program's tree. -/
theorem compile_eq_ok_iff (source : String) (f : Function) :
    compile source = .ok f ↔ (∀ token ∈ Token.scan source, token.kind ≠ .error) ∧
      ∃ r, Grammar.Program (Token.scan source) r ∧ r.Allowed none ∧ f = r.function none := by
  rw [compile_iff_program]
  constructor
  · rintro ⟨r, hprogram, hallowed, rfl⟩
    exact ⟨hprogram.readable, r, hprogram, hallowed, rfl⟩
  · rintro ⟨-, h⟩
    exact h

end Lox
