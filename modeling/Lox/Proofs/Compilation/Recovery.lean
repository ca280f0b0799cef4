import Lox.Proofs.Compilation.Stable

/-! # The end of a panic

A declaration that caused a panic is skipped over up to the next statement, and the panic ends before that.
Skipping accepts tokens, though, and the lexical errors before them are reported on the way, each of which
starts a panic anew. Nothing ends that one before the next declaration. -/

namespace Lox.Compiler

variable {c d : Compiler} {fuel : Nat}

/-! ### What is skipped -/

/-- The tokens that are passed on the way from one state to another, and whether the panic that is left comes
    from before or from a lexical error among them. -/
structure Passes (c d : Compiler) (tokens skipped : List Token) : Prop where
  tokens_eq : tokens = skipped ++ d.rest
  panicking_iff : d.panicking = true ↔ c.panicking = true ∨ ∃ token ∈ skipped, token.kind = .error

theorem reportAt_panicking (token : Token) (cause : Diagnostic.Cause) :
    (c.reportAt token cause).panicking = true := by
  unfold reportAt
  split
  · assumption
  · rfl

theorem shift_passes (c : Compiler) (tokens : List Token) :
    ∃ skipped, Passes c (c.shift tokens) tokens skipped := by
  induction tokens generalizing c with
  | nil => exact ⟨[], rfl, by simp [shift]⟩
  | cons token tokens ih =>
    rw [shift]
    split
    · rename_i herror
      obtain ⟨skipped, htokens, hpanic⟩ := ih (c.reportAt token (.lexical token.lexeme))
      refine ⟨token :: skipped, congrArg (token :: ·) htokens, ?_⟩
      rw [hpanic]
      exact iff_of_true (Or.inl (reportAt_panicking _ _)) (Or.inr ⟨token, List.mem_cons_self, herror⟩)
    · rename_i hword
      exact ⟨[token], rfl, by simp [hword]⟩

theorem accept_passes (c : Compiler) : ∃ skipped, Passes c c.accept c.rest skipped := by
  obtain ⟨skipped, htokens, hpanic⟩ := shift_passes { c with previous := c.current } c.rest
  exact ⟨skipped, htokens, hpanic⟩

theorem skipStatement_passes (c : Compiler) (fuel : Nat) :
    ∃ skipped, Passes c (c.skipStatement fuel) c.rest skipped := by
  induction fuel generalizing c with
  | zero => exact ⟨[], rfl, by simp [skipStatement]⟩
  | succ fuel ih =>
    rw [skipStatement]
    split
    · exact ⟨[], rfl, by simp⟩
    · obtain ⟨first, hfirst, hpanicFirst⟩ := accept_passes c
      obtain ⟨others, hothers, hpanic⟩ := ih c.accept
      refine ⟨first ++ others, by rw [hfirst, hothers, List.append_assoc], ?_⟩
      rw [hpanic, hpanicFirst]
      simp only [List.mem_append, or_and_right, exists_or, or_assoc]

/-- A panic is left after a recovery exactly if there was one and a lexical error is skipped over. -/
theorem recover_passes (c : Compiler) (fuel : Nat) : ∃ skipped, c.rest = skipped ++ (c.recover fuel).rest ∧
    ((c.recover fuel).panicking = true ↔ c.panicking = true ∧ ∃ token ∈ skipped, token.kind = .error) := by
  unfold recover
  split
  · rename_i hpanic
    obtain ⟨skipped, htokens, hleft⟩ := skipStatement_passes { c with panicking := false } fuel
    refine ⟨skipped, htokens, ?_⟩
    rw [hleft, hpanic]
    simp
  · rename_i hcalm
    exact ⟨[], rfl, iff_of_false hcalm fun h => hcalm h.1⟩

/-! ### What all of a compilation keeps -/

/-- What is accepted are the next of the tokens. -/
theorem rest_stable (tokens : List Token) : Stable fun c => c.rest <:+ tokens where
  body _ _ h := h
  finished _ _ h := h
  reportLast c cause h := by
    unfold report reportAt
    split <;> exact h
  reportHere c cause h := by
    unfold Compiler.reportHere reportAt
    split <;> exact h
  accept c h := by
    obtain ⟨skipped, htokens, -⟩ := accept_passes c
    have hsuffix : c.accept.rest <:+ c.rest := ⟨skipped, htokens.symm⟩
    exact hsuffix.trans h
  calm _ h := h

/-- Diagnostics have been added since some state, at least one if there is a panic. -/
def ReportsSince (c d : Compiler) : Prop :=
  ∃ new : Array Diagnostic, d.diagnostics = c.diagnostics ++ new ∧ (d.panicking = true → new ≠ #[])

theorem ReportsSince.reportAt (h : ReportsSince c d) (token : Token) (cause : Diagnostic.Cause) :
    ReportsSince c (d.reportAt token cause) := by
  unfold Compiler.reportAt
  split
  · exact h
  · obtain ⟨new, hnew, -⟩ := h
    rw [hnew]
    exact ⟨_, Array.push_append, fun _ => Array.push_ne_empty⟩

theorem ReportsSince.shift (h : ReportsSince c d) (tokens : List Token) : ReportsSince c (d.shift tokens) := by
  induction tokens generalizing d with
  | nil => exact h
  | cons token tokens ih =>
    unfold Compiler.shift
    split
    · exact ih (h.reportAt _ _)
    · exact h

theorem reportsSince_stable (c : Compiler) : Stable (ReportsSince c) where
  body _ _ h := h
  finished _ _ h := h
  reportLast d cause h := h.reportAt d.previous cause
  reportHere d cause h := h.reportAt d.current cause
  accept d h := by
    have moved : ReportsSince c { d with previous := d.current } := h
    exact moved.shift d.rest
  calm _ h := by
    obtain ⟨new, hnew, -⟩ := h
    exact ⟨new, hnew, fun hpanic => by cases hpanic⟩

/-! ### One declaration after another -/

/-- A declaration, without the end of the panic that it may cause. -/
def attempt (fuel : Nat) (c : Compiler) : Compiler :=
  match c.current.kind with
  | .funWord => funDeclaration (declaration fuel) fuel c.accept
  | .varWord => varDeclaration (expression fuel .assignment) c.accept
  | _ => statement fuel c

theorem declaration_succ (fuel : Nat) (c : Compiler) :
    declaration (fuel + 1) c = (attempt fuel c).recover fuel := by
  rw [declaration]
  rfl

/-- The state of a loop over declarations after so many of them. -/
def sibling (fuel : Nat) (c : Compiler) : Nat → Compiler
  | 0 => c
  | k + 1 => declaration fuel (sibling fuel c k)

theorem program_eq_sibling {k : Nat} (hmore : ∀ i < k, (sibling fuel c i).sees .endOfInput = false)
    (rounds : Nat) :
    program fuel c (rounds + k) = program fuel (sibling fuel c k) rounds := by
  induction k generalizing rounds with
  | zero => rfl
  | succ k ih =>
    have hlast := hmore k (Nat.lt_succ_self k)
    rw [← Nat.succ_add_eq_add_succ, ih (fun i hi => hmore i (Nat.lt_succ_of_lt hi)), program, hlast]
    rfl

theorem block_eq_sibling {k : Nat} (hmore : ∀ i < k, (sibling fuel c i).sees .rightBrace = false ∧
    (sibling fuel c i).sees .endOfInput = false) (rounds : Nat) :
    block (declaration fuel) c (rounds + k) = block (declaration fuel) (sibling fuel c k) rounds := by
  induction k generalizing rounds with
  | zero => rfl
  | succ k ih =>
    obtain ⟨hbrace, hend⟩ := hmore k (Nat.lt_succ_self k)
    rw [← Nat.succ_add_eq_add_succ, ih (fun i hi => hmore i (Nat.lt_succ_of_lt hi)), block, hbrace, hend]
    rfl

theorem Stable.attempt {P : Compiler → Prop} (S : Stable P) (h : P c) (fuel : Nat) : P (attempt fuel c) := by
  unfold Compiler.attempt
  split
  · exact S.funDeclaration (S.statement_declaration fuel).2 (S.accept c h) fuel
  · exact S.varDeclaration (S.expression fuel .assignment) (S.accept c h)
  · exact (S.statement_declaration fuel).1 c h

theorem Stable.sibling {P : Compiler → Prop} (S : Stable P) (h : P c) (fuel k : Nat) :
    P (sibling fuel c k) := by
  induction k with
  | zero => exact h
  | succ k ih => exact (S.statement_declaration fuel).2 _ ih

/-- A loop over declarations, outside or in a block, starts one after another in a panic exactly if the other
    one was in a panic at its end and a lexical error is among the tokens that were then skipped over. Without
    lexical errors no declaration of a loop starts in a panic that an earlier one caused. What starts without
    a panic and ends in one has reported a diagnostic of its own. -/
theorem sibling_panicking_iff (fuel k : Nat) (c : Compiler) :
    ((∀ i < k + 1, (sibling (fuel + 1) c i).sees .endOfInput = false) → ∀ rounds,
      program (fuel + 1) c (rounds + (k + 1)) = program (fuel + 1) (sibling (fuel + 1) c (k + 1)) rounds) ∧
    ((∀ i < k + 1, (sibling (fuel + 1) c i).sees .rightBrace = false ∧
      (sibling (fuel + 1) c i).sees .endOfInput = false) →
      ∀ rounds, block (declaration (fuel + 1)) c (rounds + (k + 1)) =
        block (declaration (fuel + 1)) (sibling (fuel + 1) c (k + 1)) rounds) ∧
    (∃ skipped, (attempt fuel (sibling (fuel + 1) c k)).rest = skipped ++ (sibling (fuel + 1) c (k + 1)).rest ∧
      ((sibling (fuel + 1) c (k + 1)).panicking = true ↔
        (attempt fuel (sibling (fuel + 1) c k)).panicking = true ∧ ∃ token ∈ skipped, token.kind = .error)) ∧
    ((∀ token ∈ c.rest, token.kind ≠ .error) → (sibling (fuel + 1) c (k + 1)).panicking = false) ∧
    ((sibling (fuel + 1) c (k + 1)).panicking = false →
      ReportsSince (sibling (fuel + 1) c (k + 1)) (attempt fuel (sibling (fuel + 1) c (k + 1)))) := by
  have hnext : sibling (fuel + 1) c (k + 1) = (attempt fuel (sibling (fuel + 1) c k)).recover fuel :=
    declaration_succ fuel _
  obtain ⟨skipped, htokens, hpanic⟩ := recover_passes (attempt fuel (sibling (fuel + 1) c k)) fuel
  refine ⟨fun hmore => program_eq_sibling hmore, fun hmore => block_eq_sibling hmore, ⟨skipped, ?_, ?_⟩,
    fun hclean => ?_,
    fun hcalm => ?_⟩
  · rw [hnext]
    exact htokens
  · rw [hnext]
    exact hpanic
  · rw [hnext, ← Bool.not_eq_true, hpanic]
    rintro ⟨-, token, htoken, herror⟩
    have hrest := (rest_stable c.rest).attempt ((rest_stable c.rest).sibling List.suffix_rfl (fuel + 1) k) fuel
    refine hclean token (hrest.subset ?_) herror
    rw [htokens]
    exact List.mem_append_left _ htoken
  · refine (reportsSince_stable _).attempt ⟨#[], (Array.append_empty).symm, fun hpanic => ?_⟩ fuel
    rw [hcalm] at hpanic
    cases hpanic

/-- A text whose second declaration starts in the panic of a lexical error that is skipped over after the
    first, behind a semicolon. That the second one has no expression is not reported. -/
theorem panic_outlives_recovery :
    let tokens := Token.scan "1 1 @; print ;"
    let next := sibling (2 * tokens.length + 4) (start tokens).accept 1
    next.panicking = true ∧ next.previous.kind = .semicolon ∧ next.current.kind = .printWord ∧
      compile "1 1 @; print ;" =
        .error [⟨1, .at "1", .expected .endExpression⟩, ⟨1, .unknown, .lexical "Unexpected character."⟩] := by
  refine ⟨by decide +kernel, by decide +kernel, by decide +kernel, ?_⟩
  have hreported : (match compile "1 1 @; print ;" with
      | .error diagnostics => diagnostics
      | .ok _ => []) = [⟨1, .at "1", .expected .endExpression⟩,
          ⟨1, .unknown, .lexical "Unexpected character."⟩] := by
    decide +kernel
  cases h : compile "1 1 @; print ;" with
  | ok f =>
    rw [h] at hreported
    cases hreported
  | error diagnostics =>
    rw [h] at hreported
    exact congrArg Except.error hreported

end Lox.Compiler
