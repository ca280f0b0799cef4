import Lox.Proofs.Compilation.Program
import Lox.Proofs.Compilation.Recovery
import Lox.Proofs.Tiling

/-! # The order of diagnostics

Diagnostics are reported at the last token, at the one at hand, or at a lexical error between them. After a
report further ones are dropped, so they come in order as long as the compiler panics. When the panic ends,
the last report can be ahead of the last token, though not ahead of the token at hand; but then nothing is
reported at the last token before another one is accepted. This holds as long as the fuel of a block does not
run out before its end, which is never the case: every declaration takes a token. -/

namespace Lox.Compiler

variable {c : Compiler} {k fuel : Nat}

/-- Tokens and diagnostics are in order, and the diagnostics not ahead of the token at hand; at most
    `k` tokens follow. -/
structure InOrder (k : Nat) (c : Compiler) : Prop where
  ends : Ends (c.current :: c.rest)
  room : c.rest.length ≤ k
  tokens : (c.previous :: c.current :: c.rest).Pairwise (·.line ≤ ·.line)
  sorted : c.diagnostics.toList.Pairwise (·.line ≤ ·.line)
  reached : ∀ d ∈ c.diagnostics.toList, d.line ≤ c.current.line

/-- Moreover, there is a panic, or the diagnostics are not ahead of the last token. -/
structure Settled (k : Nat) (c : Compiler) : Prop extends InOrder k c where
  behind : c.panicking = false → ∀ d ∈ c.diagnostics.toList, d.line ≤ c.previous.line

/-! ### Reports and tokens -/

theorem InOrder.mono {j : Nat} (h : InOrder j c) (hle : j ≤ k) : InOrder k c :=
  { h with room := Nat.le_trans h.room hle }

theorem Settled.mono {j : Nat} (h : Settled j c) (hle : j ≤ k) : Settled k c := ⟨h.toInOrder.mono hle, h.behind⟩

theorem InOrder.current_kind (h : InOrder 0 c) : c.current.kind = .endOfInput := by
  have hends := h.ends
  rwa [List.eq_nil_of_length_eq_zero (Nat.le_zero.mp h.room)] at hends

/-- A report at a token between the diagnostics and the token at hand. -/
theorem InOrder.reportAt (h : InOrder k c) {token : Token} (hline : token.line ≤ c.current.line)
    (hbehind : c.panicking = false → ∀ d ∈ c.diagnostics.toList, d.line ≤ token.line)
    (cause : Diagnostic.Cause) :
    InOrder k (c.reportAt token cause) := by
  unfold Compiler.reportAt
  split
  · exact h
  · rename_i hcalm
    have hbehind := hbehind (Bool.eq_false_iff.mpr hcalm)
    refine { h with sorted := ?_, reached := ?_ }
    · rw [Array.toList_push, List.pairwise_append]
      refine ⟨h.sorted, List.pairwise_singleton _ _, fun d hd e he => ?_⟩
      rw [List.mem_singleton.mp he]
      exact hbehind d hd
    · rw [Array.toList_push]
      intro d hd
      rcases List.mem_append.mp hd with hd | hd
      · exact h.reached d hd
      · rw [List.mem_singleton.mp hd]
        exact hline

/-- Nothing more is reported after a report. -/
theorem InOrder.settled (h : InOrder k c) (hpanic : c.panicking = true) : Settled k c :=
  ⟨h, fun hcalm => by rw [hpanic] at hcalm; cases hcalm⟩

theorem InOrder.reportHere (h : InOrder k c) (cause : Diagnostic.Cause) : Settled k (c.reportHere cause) :=
  (h.reportAt (UInt32.le_refl _) (fun _ => h.reached) cause).settled (reportAt_panicking _ _)

/-- A report at the last token. -/
theorem Settled.report (h : Settled k c) (cause : Diagnostic.Cause) : Settled k (c.report cause) := by
  have hline : c.previous.line ≤ c.current.line := (List.pairwise_cons.mp h.tokens).1 _ List.mem_cons_self
  exact (h.toInOrder.reportAt hline h.behind cause).settled (reportAt_panicking _ _)

/-- Taking the next of some tokens to hand, with the lexical errors before it. -/
theorem settled_shift {tokens : List Token} (hends : Ends tokens) (hroom : tokens.length ≤ k + 1)
    (htokens : (c.previous :: tokens).Pairwise (·.line ≤ ·.line))
    (hsorted : c.diagnostics.toList.Pairwise (·.line ≤ ·.line))
    (hreached : ∀ d ∈ c.diagnostics.toList, ∀ token ∈ tokens, d.line ≤ token.line)
    (hbehind : c.panicking = false → ∀ d ∈ c.diagnostics.toList, d.line ≤ c.previous.line) :
    Settled k (c.shift tokens) := by
  induction tokens generalizing c with
  | nil => exact absurd hends id
  | cons token tokens ih =>
    obtain ⟨hprevious, hlater⟩ := List.pairwise_cons.mp htokens
    obtain ⟨htoken, htokens'⟩ := List.pairwise_cons.mp hlater
    rw [shift]
    split
    · rename_i herror
      have hends' : Ends tokens := by
        cases tokens with
        | nil =>
          rw [Ends, herror] at hends
          cases hends
        | cons next tokens => exact hends.2
      have hskip : (c.previous :: tokens).Pairwise (·.line ≤ ·.line) :=
        List.pairwise_cons.mpr ⟨fun t ht => hprevious t (List.mem_cons_of_mem _ ht), htokens'⟩
      have hroom' : tokens.length ≤ k + 1 := Nat.le_of_succ_le hroom
      unfold Compiler.reportAt
      split
      · exact ih hends' hroom' hskip hsorted
          (fun d hd t ht => hreached d hd t (List.mem_cons_of_mem _ ht)) hbehind
      · refine ih hends' hroom' hskip ?_ ?_ fun hcalm => by cases hcalm
        · rw [Array.toList_push, List.pairwise_append]
          refine ⟨hsorted, List.pairwise_singleton _ _, fun d hd e he => ?_⟩
          rw [List.mem_singleton.mp he]
          exact hreached d hd token List.mem_cons_self
        · rw [Array.toList_push]
          intro d hd t ht
          rcases List.mem_append.mp hd with hd | hd
          · exact hreached d hd t (List.mem_cons_of_mem _ ht)
          · rw [List.mem_singleton.mp hd]
            exact htoken t ht
    · exact ⟨⟨hends, Nat.le_of_succ_le_succ hroom, htokens, hsorted,
        fun d hd => hreached d hd token List.mem_cons_self⟩, hbehind⟩

/-- Once the token at hand is accepted, nothing is reported ahead of it. -/
theorem InOrder.accept (h : InOrder k c) : Settled (k - 1) c.accept := by
  have hlater := (List.pairwise_cons.mp h.tokens).2
  have hends := h.ends
  have hroom := h.room
  unfold Compiler.accept
  cases hrest : c.rest with
  | nil =>
    rw [hrest] at hends
    rw [shift]
    refine ⟨⟨hends, Nat.zero_le _, ?_, h.sorted, h.reached⟩, fun _ => h.reached⟩
    exact List.pairwise_cons.mpr ⟨fun t ht => by rw [List.mem_singleton.mp ht]; exact UInt32.le_refl _,
      List.pairwise_singleton _ _⟩
  | cons next rest =>
    rw [hrest] at hends hlater hroom
    refine settled_shift hends.2 ?_ hlater h.sorted (fun d hd t ht => ?_) fun _ => h.reached
    · rw [List.length_cons] at hroom ⊢
      omega
    · exact UInt32.le_trans (h.reached d hd) ((List.pairwise_cons.mp hlater).1 t ht)

/-- Settled states stay so until a panic ends. -/
theorem settled_steady (k : Nat) : Steady (Settled k) where
  body _ _ h := ⟨⟨h.ends, h.room, h.tokens, h.sorted, h.reached⟩, h.behind⟩
  finished _ _ h := ⟨⟨h.ends, h.room, h.tokens, h.sorted, h.reached⟩, h.behind⟩
  reportLast _ cause h := h.report cause
  reportHere _ cause h := h.toInOrder.reportHere cause
  accept _ h := h.toInOrder.accept.mono (Nat.sub_le k 1)

theorem InOrder.expect (h : InOrder k c) (kind : Token.Kind) (what : Diagnostic.Expectation) :
    Settled k (c.expect kind what) := by
  unfold Compiler.expect
  split
  · exact h.accept.mono (Nat.sub_le k 1)
  · exact h.reportHere _

/-- The end of a panic. -/
theorem Settled.recover (h : Settled k c) (fuel : Nat) : InOrder k (c.recover fuel) := by
  unfold Compiler.recover
  split
  · refine skipStatement_of_accept (fun d hd => (hd.accept.mono (Nat.sub_le k 1)).toInOrder) ?_ fuel
    exact ⟨h.ends, h.room, h.tokens, h.sorted, h.reached⟩
  · exact h.toInOrder

/-! ### Statements and declarations -/

/-- Declarations that take tokens keep the order. -/
def KeepsOrder (decl : Compiler → Compiler) (k : Nat) : Prop :=
  ∀ j ≤ k, ∀ c, InOrder j c → InOrder (j - 1) (decl c)

theorem KeepsOrder.block {decl : Compiler → Compiler} (hdecl : KeepsOrder decl k) (h : InOrder k c)
    {rounds : Nat} (hrounds : k < rounds) : Settled k (block decl c rounds) := by
  induction rounds generalizing c k with
  | zero => exact absurd hrounds (Nat.not_lt_zero _)
  | succ rounds ih =>
    rw [Compiler.block]
    split
    · exact h.expect _ _
    · rename_i hmore
      have hpos : 0 < k := by
        by_contra hzero
        have hend := (h.mono (Nat.le_of_not_lt hzero)).current_kind
        simp [sees, hend] at hmore
      have hlater : KeepsOrder decl (k - 1) := fun j hj => hdecl j (Nat.le_trans hj (Nat.sub_le k 1))
      exact (ih hlater (hdecl k (Nat.le_refl k) c h) (by omega)).mono (Nat.sub_le k 1)

/-- An expression statement begins with a token that is accepted. -/
theorem InOrder.expressionStatement (h : InOrder k c) (fuel : Nat) :
    Settled (k - 1) (expressionStatement (expression (fuel + 1) .assignment) c) := by
  have S := settled_steady (k - 1)
  exact S.emit (S.expect (S.expression_of_accept (S.expression fuel) h.accept .assignment) _ _) _

theorem statement_eq_of_end (hend : c.current.kind = .endOfInput) (fuel : Nat) :
    statement (fuel + 1) c = expressionStatement (expression fuel .assignment) c := by
  rw [statement, anyStatement, hend]

theorem statement_declaration_inOrder (fuel : Nat) :
    (∀ k c, 2 * k + 2 ≤ fuel → InOrder k c → Settled (k - 1) (statement fuel c)) ∧
      ∀ k c, 2 * k + 3 ≤ fuel → InOrder k c → InOrder (k - 1) (declaration fuel c) := by
  induction fuel with
  | zero => exact ⟨fun k c hfuel => absurd hfuel (by omega), fun k c hfuel => absurd hfuel (by omega)⟩
  | succ fuel ih =>
    obtain ⟨hstmt, hdecl⟩ := ih
    -- What follows the first token of a statement or declaration has fuel for one token less.
    have hblock : ∀ k, 2 * k + 3 ≤ fuel → ∀ d, Settled k d → Settled k (block (declaration fuel) d fuel) := by
      intro k hfuel d hd
      refine KeepsOrder.block (fun j hj c hc => hdecl j c (by omega) hc) hd.toInOrder (by omega)
    constructor
    · intro k c hfuel h
      obtain ⟨rest, rfl⟩ : ∃ rest, fuel = rest + 1 := ⟨fuel - 1, by omega⟩
      cases k with
      | zero =>
        rw [statement_eq_of_end h.current_kind]
        exact h.expressionStatement rest
      | succ k =>
        rw [statement]
        refine (settled_steady k).anyStatement_of_accept ((settled_steady k).expression _ _) (fun d hd => ?_)
          (hblock k (by omega)) h.accept (h.expressionStatement rest)
        exact (hstmt k d (by omega) hd.toInOrder).mono (Nat.sub_le k 1)
    · intro k c hfuel h
      rw [declaration_succ]
      refine Settled.recover ?_ fuel
      unfold attempt
      split <;> rename_i hkind
      · cases k with
        | zero =>
          rw [h.current_kind] at hkind
          cases hkind
        | succ k => exact (settled_steady k).funDeclaration_of_block (hblock k (by omega)) h.accept
      · exact (settled_steady _).varDeclaration ((settled_steady _).expression _ _) h.accept
      · exact hstmt k c (by omega) h

theorem InOrder.program (h : InOrder k c) {fuel : Nat} (hfuel : 2 * k + 3 ≤ fuel) (rounds : Nat) :
    InOrder k (program fuel c rounds) := by
  induction rounds generalizing c with
  | zero => exact h
  | succ rounds ih =>
    rw [Compiler.program]
    split
    · exact (h.accept.mono (Nat.sub_le k 1)).toInOrder
    · exact ih (((statement_declaration_inOrder fuel).2 k c hfuel h).mono (Nat.sub_le k 1))

/-! ### Lines of the source -/

/-- The lines of all tokens and diagnostics are among some lines. -/
structure Within (lines : UInt32 → Prop) (c : Compiler) : Prop where
  tokens : ∀ token ∈ c.previous :: c.current :: c.rest, lines token.line
  diagnostics : ∀ d ∈ c.diagnostics.toList, lines d.line

theorem Within.reportAt {lines : UInt32 → Prop} (h : Within lines c) {token : Token} (hline : lines token.line)
    (cause : Diagnostic.Cause) : Within lines (c.reportAt token cause) := by
  unfold Compiler.reportAt
  split
  · exact h
  · refine ⟨h.tokens, ?_⟩
    rw [Array.toList_push]
    intro d hd
    rcases List.mem_append.mp hd with hd | hd
    · exact h.diagnostics d hd
    · rw [List.mem_singleton.mp hd]
      exact hline

theorem Within.shift {lines : UInt32 → Prop} (h : Within lines c) {tokens : List Token}
    (htokens : ∀ token ∈ tokens, lines token.line) : Within lines (c.shift tokens) := by
  induction tokens generalizing c with
  | nil =>
    refine ⟨fun token htoken => h.tokens token ?_, h.diagnostics⟩
    rcases List.mem_cons.mp htoken with rfl | htoken
    · exact List.mem_cons_self
    · rw [List.mem_singleton.mp htoken]
      exact List.mem_cons_of_mem _ List.mem_cons_self
  | cons token tokens ih =>
    obtain ⟨htoken, hrest⟩ := List.forall_mem_cons.mp htokens
    rw [Compiler.shift]
    split
    · exact ih (h.reportAt htoken _) hrest
    · exact ⟨List.forall_mem_cons.mpr ⟨h.tokens _ List.mem_cons_self, htokens⟩, h.diagnostics⟩

theorem within_stable (lines : UInt32 → Prop) : Stable (Within lines) where
  body _ _ h := ⟨h.tokens, h.diagnostics⟩
  finished _ _ h := ⟨h.tokens, h.diagnostics⟩
  reportLast c cause h := h.reportAt (h.tokens _ List.mem_cons_self) cause
  reportHere c cause h := h.reportAt (h.tokens _ (List.mem_cons_of_mem _ List.mem_cons_self)) cause
  accept c h := by
    obtain ⟨-, hlater⟩ := List.forall_mem_cons.mp h.tokens
    obtain ⟨hcurrent, hrest⟩ := List.forall_mem_cons.mp hlater
    have hmoved : Within lines { c with previous := c.current } :=
      ⟨List.forall_mem_cons.mpr ⟨hcurrent, hlater⟩, h.diagnostics⟩
    exact hmoved.shift hrest
  calm _ h := ⟨h.tokens, h.diagnostics⟩

/-! ### Sources -/

/-- The completion of the script reports nothing. -/
theorem diagnostics_finish (c : Compiler) : c.finish.2.diagnostics = c.diagnostics := by
  have hwritten : c.emitBareReturn.diagnostics = c.diagnostics := by
    rw [emitBareReturn, emit_eq _ _ 0, emit_eq _ _ 0]
  unfold Compiler.finish
  dsimp only
  split <;> exact hwritten

theorem inOrder_start {tokens : List Token} (hends : Ends tokens) (hsorted : tokens.Pairwise (·.line ≤ ·.line))
    (hfirst : ∀ token ∈ tokens, 1 ≤ token.line) : InOrder tokens.length (start tokens).accept := by
  have hline : ∀ token ∈ tokens, Token.unread.line ≤ token.line := hfirst
  exact (settled_shift hends (Nat.le_succ _) (List.pairwise_cons.mpr ⟨hline, hsorted⟩) List.Pairwise.nil
    (fun _ hd => absurd hd List.not_mem_nil) fun _ _ hd => absurd hd List.not_mem_nil).toInOrder

theorem within_start {lines : UInt32 → Prop} {tokens : List Token} (hunread : lines Token.unread.line)
    (htokens : ∀ token ∈ tokens, lines token.line) : Within lines (start tokens) where
  tokens := List.forall_mem_cons.mpr ⟨hunread, List.forall_mem_cons.mpr ⟨hunread, htokens⟩⟩
  diagnostics _ hd := absurd hd List.not_mem_nil

/-- The diagnostics of a text that does not compile come in the order of their lines, and their lines are
    lines of the text. -/
theorem diagnostics_in_order {source : String} (hlines : source.toList.count '\n' < UInt32.size - 1)
    {diagnostics : List Diagnostic} (h : compile source = .error diagnostics) :
    diagnostics.Pairwise (·.line ≤ ·.line) ∧
      ∀ d ∈ diagnostics, 1 ≤ d.line.toNat ∧ d.line.toNat ≤ 1 + source.toList.count '\n' := by
  obtain ⟨hsorted, htokens⟩ := Token.lines_scan hlines
  have horder : InOrder (Token.scan source).length (compiled (Token.scan source)) :=
    (inOrder_start (Token.ends_scan source) hsorted fun token htoken =>
      UInt32.le_iff_toNat_le.mpr (htokens token htoken).1).program (by omega) _
  have hwithin : Within (fun line => 1 ≤ line.toNat ∧ line.toNat ≤ 1 + source.toList.count '\n')
      (compiled (Token.scan source)) :=
    (within_stable _).program
      ((within_stable _).accept _ (within_start ⟨Nat.le_refl 1, Nat.le_add_right 1 _⟩ htokens)) _ _
  have hresult : (compileTokens (Token.scan source)).result = .error diagnostics := h
  rw [result_compileTokens, diagnostics_finish] at hresult
  split at hresult
  · cases hresult
  · cases hresult
    exact ⟨horder.sorted, hwithin.diagnostics⟩

/-- A text with an error at the last token, a lexical error ahead of the token at hand, an error in a block,
    and a block that is not closed. -/
theorem diagnostics_in_order_mixed : ∃ diagnostics,
    compile "var a = 1 = 2;\nprint @\n;\n\x7b var b = b;" = .error diagnostics ∧
    diagnostics.map (·.line) = [1, 2, 4, 4] ∧ diagnostics.Pairwise (·.line ≤ ·.line) ∧
    ∀ d ∈ diagnostics, 1 ≤ d.line.toNat ∧ d.line.toNat ≤ 4 := by
  have hlines : ((compile "var a = 1 = 2;\nprint @\n;\n\x7b var b = b;").map fun _ => ()).mapError
      (·.map (·.line)) = .error [1, 2, 4, 4] := by decide +kernel
  generalize h : compile "var a = 1 = 2;\nprint @\n;\n\x7b var b = b;" = result at hlines
  cases result with
  | ok script => cases hlines
  | error diagnostics =>
    obtain ⟨hsorted, hwithin⟩ := diagnostics_in_order (by decide +kernel) h
    exact ⟨diagnostics, rfl, Except.error.inj hlines, hsorted, hwithin⟩

end Lox.Compiler
