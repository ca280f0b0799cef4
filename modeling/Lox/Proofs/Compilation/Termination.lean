import Lox.Proofs.Compilation.Naming
import Lox.Proofs.Compilation.Watching
import Lox.Proofs.Precedence
import Lox.Proofs.Scan

/-! # Compilation ends

What is left of a compilation is measured by the number of tokens after the one at hand. Every expression,
statement and declaration accepts a token unless the input is at its end, and so does every round of a loop
that goes on, whether something was reported on the way or not. A statement can lead to an expression and a
declaration to a statement without one, so three levels of nesting at most take no token, and the fuel of a
compilation never runs out. -/

namespace Lox

/-! ### Tokens that are left -/

namespace Compiler

variable {c : Compiler} {k : Nat}

/-- The tokens end with the end of the input, and at most `k` come after the one at hand. -/
structure Left (k : Nat) (c : Compiler) : Prop where
  ends : Ends (c.current :: c.rest)
  room : c.rest.length ≤ k

theorem Left.mono {j : Nat} (h : Left j c) (hle : j ≤ k) : Left k c := ⟨h.ends, Nat.le_trans h.room hle⟩

theorem Left.atEnd (h : Left 0 c) : c.current.kind = .endOfInput := by
  have hends := h.ends
  rwa [List.eq_nil_of_length_eq_zero (Nat.le_zero.mp h.room)] at hends

theorem Left.pos (h : Left k c) (hmore : c.current.kind ≠ .endOfInput) : 0 < k := by
  refine Nat.pos_of_ne_zero fun hzero => hmore ?_
  subst hzero
  exact h.atEnd

theorem Left.pos_of_sees (h : Left k c) {kind : Token.Kind} (hsees : c.sees kind = true)
    (hkind : kind ≠ .endOfInput) :
    0 < k := h.pos fun hend => hkind (of_decide_eq_true hsees ▸ hend)

theorem Left.reportAt (h : Left k c) (token : Token) (cause : Diagnostic.Cause) :
    Left k (c.reportAt token cause) := by
  unfold Compiler.reportAt
  split
  · exact h
  · exact ⟨h.ends, h.room⟩

theorem left_shift {tokens : List Token} (hends : Ends tokens) (hroom : tokens.length ≤ k + 1) :
    Left k (c.shift tokens) := by
  induction tokens generalizing c with
  | nil => exact absurd hends id
  | cons token tokens ih =>
    rw [shift]
    split
    · rename_i herror
      cases tokens with
      | nil =>
        rw [Ends, herror] at hends
        cases hends
      | cons next tokens => exact ih hends.2 (Nat.le_of_succ_le hroom)
    · exact ⟨hends, Nat.le_of_succ_le_succ hroom⟩

/-- A token is accepted unless the end of the input is at hand. -/
theorem Left.accept (h : Left k c) : Left (k - 1) c.accept := by
  have hends := h.ends
  have hroom := h.room
  unfold Compiler.accept
  cases hrest : c.rest with
  | nil =>
    rw [hrest] at hends
    exact ⟨hends, Nat.zero_le _⟩
  | cons next rest =>
    rw [hrest] at hends hroom
    rw [List.length_cons] at hroom
    exact left_shift hends.2 (by rw [List.length_cons]; omega)

theorem left_stable (k : Nat) : Stable (Left k) where
  body _ _ h := ⟨h.ends, h.room⟩
  finished _ _ h := ⟨h.ends, h.room⟩
  reportLast c cause h := h.reportAt c.previous cause
  reportHere c cause h := h.reportAt c.current cause
  accept _ h := h.accept.mono (Nat.sub_le k 1)
  calm _ h := ⟨h.ends, h.room⟩

end Compiler

/-! ### Notes of a compilation that gets on -/

/-- What is noted does not stand in the way of the end: the fuel has not run out, the nesting is no deeper
    than `deepest`, and of the tokens at least one was taken, by an expression, a statement or a declaration
    unless it was entered at the end of the input, and by a round of a loop in any case. -/
def Note.GetsOn (deepest : Nat) : Note → Prop
  | exhausted => False
  | entered depth => depth ≤ deepest
  | passed before after => before.current.kind ≠ .endOfInput → after.rest.length < before.rest.length
  | round before after => after.rest.length < before.rest.length
  | _ => True

namespace Watched

variable {deepest k : Nat} {w : Watched}

/-- At most `k` tokens are left, and nothing noted so far stands in the way of the end. -/
structure Onward (deepest k : Nat) (w : Watched) : Prop where
  left : w.compiler.Left k
  notes : ∀ note ∈ w.notes, note.GetsOn deepest

/-- A part of the compilation that gets on, and takes a token if one is left. -/
def Takes (deepest k : Nat) (f : Watched → Watched) : Prop :=
  ∀ w, Onward deepest k w → Onward deepest (k - 1) (f w)

theorem Takes.keeps {f : Watched → Watched} (hf : Takes deepest k f) (h : Onward deepest k w) :
    Onward deepest k (f w) :=
  ⟨(hf w h).left.mono (Nat.sub_le k 1), (hf w h).notes⟩

namespace Onward

theorem mono {j : Nat} (h : Onward deepest j w) (hle : j ≤ k) : Onward deepest k w := ⟨h.left.mono hle, h.notes⟩

theorem note (h : Onward deepest k w) {note : Note} (hnote : note.GetsOn deepest) :
    Onward deepest k (w.note note) :=
  ⟨h.left, List.forall_mem_cons.mpr ⟨hnote, h.notes⟩⟩

theorem map (h : Onward deepest k w) {f : Compiler → Compiler}
    (hf : w.compiler.Left k → (f w.compiler).Left k) :
    Onward deepest k (w.map f) := ⟨hf h.left, h.notes⟩

theorem accept (h : Onward deepest k w) : Onward deepest (k - 1) w.accept := ⟨h.left.accept, h.notes⟩

theorem acceptAny (h : Onward deepest k w) : Onward deepest k w.accept := h.accept.mono (Nat.sub_le k 1)

theorem report (h : Onward deepest k w) (cause : Diagnostic.Cause) :
    Onward deepest k (w.map (·.report cause)) :=
  h.map ((Compiler.left_stable k).reportLast _ cause)

theorem expect (h : Onward deepest k w) (kind : Token.Kind) (what : Diagnostic.Expectation) :
    Onward deepest k (w.expect kind what) := h.map fun hleft => (Compiler.left_stable k).expect hleft kind what

theorem emit (h : Onward deepest k w) (i : Instruction) : Onward deepest k (w.emit i) :=
  h.map fun hleft => (Compiler.left_stable k).emit hleft i

theorem emitAll (h : Onward deepest k w) (instructions : List Instruction) :
    Onward deepest k (instructions.foldl Watched.emit w) := by
  induction instructions generalizing w with
  | nil => exact h
  | cons i instructions ih => exact ih (h.emit i)

theorem openJump (h : Onward deepest k w) (jump : UInt16 → Instruction) :
    Onward deepest k (w.openJump jump).2 :=
  ⟨(Compiler.left_stable k).openJump h.left jump, List.forall_mem_cons.mpr ⟨trivial, h.notes⟩⟩

theorem closeJump (h : Onward deepest k w) (place : Nat) : Onward deepest k (w.closeJump place) :=
  ⟨(Compiler.left_stable k).closeJump h.left place, List.forall_mem_cons.mpr ⟨trivial, h.notes⟩⟩

theorem emitLoop (h : Onward deepest k w) (start : Nat) : Onward deepest k (w.emitLoop start) := by
  have hnoted : Onward deepest k (w.note (.looping w.compiler start)) := h.note trivial
  exact hnoted.map fun hleft => (Compiler.left_stable k).emitLoop hleft start

theorem noteScope (h : Onward deepest k w) : Onward deepest k w.noteScope := h.note trivial

theorem closeScope (h : Onward deepest k w) : Onward deepest k w.closeScope := by
  have hnoted : Onward deepest k (w.note (.leaving w.compiler)) := h.note trivial
  exact (hnoted.map (Compiler.left_stable k).closeScope).noteScope

theorem declareName (h : Onward deepest k w) (what : Diagnostic.Expectation) :
    Onward deepest k (w.declareName what).2 :=
  ⟨(Compiler.left_stable k).declareName h.left what, List.forall_mem_cons.mpr ⟨trivial, h.notes⟩⟩

theorem completeLocal (h : Onward deepest k w) : Onward deepest k w.completeLocal :=
  (h.map (Compiler.left_stable k).completeLocal).noteScope

theorem define (h : Onward deepest k w) (global : UInt8) : Onward deepest k (w.define global) :=
  (h.map fun hleft => (Compiler.left_stable k).define hleft global).noteScope

/-- A loop goes on from fewer tokens than its round began with. -/
theorem round (h : Onward deepest k w) {before : Compiler} (hfewer : k < before.rest.length) :
    Onward deepest k (w.note (.round before w.compiler)) := h.note (Nat.lt_of_le_of_lt h.left.room hfewer)

/-- Something that began with a token at hand has taken one. -/
theorem passed {before : Compiler} {j : Nat} (hbefore : before.Left j)
    (h : Onward deepest (before.rest.length - 1) w) :
    Onward deepest (before.rest.length - 1) (w.note (.passed before w.compiler)) := by
  refine h.note fun hmore => ?_
  have hpos := (Compiler.Left.mk hbefore.ends (Nat.le_refl _)).pos hmore
  have hroom := h.left.room
  omega

/-- No more tokens are left than are left. -/
theorem exact (h : Onward deepest k w) : Onward deepest w.compiler.rest.length w :=
  ⟨⟨h.left.ends, Nat.le_refl _⟩, h.notes⟩

/-! ### Expressions -/

section

variable {parse : Level → Watched → Watched}
variable (hparse : ∀ j ≤ k, ∀ level, level ≠ .none → Takes deepest j (parse level))

include hparse

theorem mention (h : Onward deepest k w) (assignable : Bool) :
    Onward deepest k (mention parse assignable w) := by
  have hparse := hparse k (Nat.le_refl k)
  have S := Compiler.left_stable k
  have hresolved := S.resolve h.left w.compiler.previous
  have hrest : ∀ (c : Compiler) (read write : Instruction), c.Left k → Onward deepest k
      (if assignable && c.sees .equal then (parse .assignment { w with compiler := c }.accept).emit write
      else { w with compiler := c }.emit read) := by
    intro c read write hc
    have hmoved : Onward deepest k { w with compiler := c } := ⟨hc, h.notes⟩
    split
    · exact ((hparse .assignment (by decide)).keeps hmoved.acceptAny).emit _
    · exact hmoved.emit _
  unfold Watched.mention
  dsimp only
  split <;> rename_i heq <;> rw [heq] at hresolved
  · exact hrest _ _ _ hresolved
  · exact hrest _ _ _ (S.nameConstant hresolved _)

theorem operand (h : Onward deepest k w) (assignable : Bool) :
    Onward deepest k (operand parse assignable w) := by
  have hkeeps : ∀ level, level ≠ .none → Onward deepest k (parse level w) :=
    fun level hlevel => (hparse k (Nat.le_refl k) level hlevel).keeps h
  unfold Watched.operand
  split
  · exact (hkeeps .assignment (by decide)).expect _ _
  · exact (hkeeps .unary (by decide)).emit _
  · exact (hkeeps .unary (by decide)).emit _
  · exact h.mention hparse assignable
  · exact h.map fun hleft => (Compiler.left_stable k).emitConstant hleft _
  · exact h.map fun hleft => (Compiler.left_stable k).emitConstant hleft _
  · exact h.emit _
  · exact h.emit _
  · exact h.emit _
  · exact h

theorem arguments {j : Nat} (hle : j ≤ k) (h : Onward deepest j w) (count : UInt8) {rounds : Nat}
    (hrounds : j < rounds) :
    Onward deepest j (arguments parse count w rounds).2 := by
  induction rounds generalizing w j count with
  | zero => exact absurd hrounds (Nat.not_lt_zero j)
  | succ rounds ih =>
    have hroom := h.left.room
    -- the round is measured by the tokens that are left exactly, which may be fewer than `j`
    have hparsed := (hparse w.compiler.rest.length (Nat.le_trans hroom hle) .assignment (by decide)).keeps
      h.exact
    have hrest : ∀ (count : UInt8) (d : Watched), Onward deepest w.compiler.rest.length d → Onward deepest j
        (if d.compiler.sees .comma then
          Watched.arguments parse count (d.accept.note (.round w.compiler d.accept.compiler)) rounds
        else (count, d)).2 := by
      intro count d hd
      split
      · rename_i hcomma
        have hpos := hd.left.pos_of_sees hcomma (by decide)
        exact (ih (by omega) (hd.accept.round (by omega)) count (by omega)).mono (by omega)
      · exact hd.mono hroom
    unfold Watched.arguments
    dsimp only
    split
    · exact hrest _ _ (hparsed.report _)
    · exact hrest _ _ (hparsed.note trivial)

theorem callOperator (h : Onward deepest k w) {fuel : Nat} (hfuel : k < fuel) :
    Onward deepest k (callOperator parse fuel w) := by
  unfold Watched.callOperator
  by_cases hclose : w.compiler.sees .rightParen = true
  · rw [if_pos hclose]
    exact (h.expect _ _).emit _
  · rw [if_neg hclose]
    exact ((h.arguments hparse (Nat.le_refl k) 0 hfuel).expect _ _).emit _

theorem operator (h : Onward deepest k w) {fuel : Nat} (hfuel : k < fuel) :
    Onward deepest k (operator parse fuel w) := by
  have hkeeps : ∀ {d : Watched}, Onward deepest k d → ∀ level, level ≠ .none →
      Onward deepest k (parse level d) :=
    fun hd level hlevel => (hparse k (Nat.le_refl k) level hlevel).keeps hd
  unfold Watched.operator
  split
  · exact h.callOperator hparse hfuel
  · exact (hkeeps ((h.openJump _).emit _) .and (by decide)).closeJump _
  · exact (hkeeps ((((h.openJump _).openJump _).closeJump _).emit _) .or (by decide)).closeJump _
  · exact (hkeeps h _ (Level.next_ne_none _)).emitAll _

theorem operators {j : Nat} (hle : j ≤ k) (h : Onward deepest j w) {level : Level} (hlevel : level ≠ .none)
    {rounds : Nat} (hrounds : j < rounds) : Onward deepest j (operators parse level w rounds) := by
  induction rounds generalizing w j with
  | zero => exact absurd hrounds (Nat.not_lt_zero j)
  | succ rounds ih =>
    have hroom := h.left.room
    unfold Watched.operators
    split
    · rename_i hbinds
      have hpos := h.exact.left.pos fun hend => by
        rw [hend] at hbinds
        exact hlevel (Level.rank_inj (Nat.le_zero.mp hbinds))
      have htaken := h.exact.accept.operator (fun i hi => hparse i (by omega))
        (show w.compiler.rest.length - 1 < rounds by omega)
      exact (ih (by omega) (htaken.round (by omega)) (by omega)).mono (by omega)
    · exact h

end

end Onward

/-- An expression gets on if there is fuel for one level of nesting more than tokens are left. -/
theorem takes_expression (fuel depth : Nat) (hdepth : depth + fuel ≤ deepest + 1) {level : Level}
    (hlevel : level ≠ .none) (hfuel : k < fuel) : Takes deepest k (expression fuel depth level) := by
  induction fuel generalizing depth level k with
  | zero => exact absurd hfuel (Nat.not_lt_zero k)
  | succ fuel ih =>
    intro w h
    have hroom := h.left.room
    have hentered : Onward deepest w.compiler.rest.length (w.note (.entered depth)) :=
      h.exact.note (show depth ≤ deepest by omega)
    have htaken := hentered.accept
    unfold expression
    refine (Onward.passed h.left ?_).mono (Nat.sub_le_sub_right hroom 1)
    dsimp only
    split
    · rename_i hstarts
      have hpos := h.exact.left.pos fun hend => by
        rw [compiler_accept, compiler_note, Compiler.previous_accept, hend] at hstarts
        cases hstarts
      have hparse : ∀ j ≤ w.compiler.rest.length - 1, ∀ level, level ≠ .none →
          Takes deepest j (expression fuel (depth + 1) level) :=
        fun j hj level hlevel => ih (depth + 1) (by omega) hlevel (by omega)
      have hread := (htaken.operand hparse (level.rank ≤ Level.assignment.rank)).operators hparse
        (Nat.le_refl _) hlevel
        (show w.compiler.rest.length - 1 < fuel by omega)
      split
      · exact hread.acceptAny.report _
      · exact hread
    · exact htaken.report _

/-! ### Statements and declarations -/

namespace Onward

section

variable {expr stmt decl : Watched → Watched} (hexpr : ∀ j ≤ k, Takes deepest j expr)

theorem expressionStatement (hexpr : Takes deepest k expr) (h : Onward deepest k w) :
    Onward deepest (k - 1) (expressionStatement expr w) := ((hexpr w h).expect _ _).emit _

theorem varDeclaration (hexpr : Takes deepest k expr) (h : Onward deepest k w) :
    Onward deepest k (varDeclaration expr w) := by
  have hnamed := h.declareName .variableName
  unfold Watched.varDeclaration
  dsimp only
  split
  · exact ((hexpr.keeps hnamed.acceptAny).expect _ _).define _
  · exact ((hnamed.emit _).expect _ _).define _

theorem returnStatement (hexpr : Takes deepest k expr) (h : Onward deepest k w) :
    Onward deepest k (returnStatement expr w) := by
  have hrest : ∀ d : Watched, Onward deepest k d → Onward deepest k (if d.compiler.sees .semicolon then
      d.accept.map Compiler.emitBareReturn else ((expr d).expect .semicolon .endReturn).emit .ret) := by
    intro d hd
    split
    · exact hd.acceptAny.map (Compiler.left_stable k).emitBareReturn
    · exact ((hexpr.keeps hd).expect _ _).emit _
  unfold Watched.returnStatement
  dsimp only
  split
  · exact hrest _ (h.report _)
  · exact hrest _ h

theorem ifStatement (hexpr : Takes deepest k expr) (hstmt : Takes deepest k stmt) (h : Onward deepest k w) :
    Onward deepest k (ifStatement expr stmt w) := by
  have hcondition := (hexpr.keeps (h.expect .leftParen .openIf)).expect .rightParen .closeCondition
  have hthen := hstmt.keeps ((hcondition.openJump .jumpIfFalse).emit .pop)
  have helse := fun place => ((hthen.openJump .jump).closeJump place).emit .pop
  unfold Watched.ifStatement
  dsimp only
  split
  · exact (hstmt.keeps (helse _).acceptAny).closeJump _
  · exact (helse _).closeJump _

theorem whileStatement (hexpr : Takes deepest k expr) (hstmt : Takes deepest k stmt) (h : Onward deepest k w) :
    Onward deepest k (whileStatement expr stmt w) := by
  have hcondition := (hexpr.keeps (h.expect .leftParen .openWhile)).expect .rightParen .closeCondition
  have hbody := hstmt.keeps ((hcondition.openJump .jumpIfFalse).emit .pop)
  exact ((hbody.emitLoop _).closeJump _).emit _

theorem forInitializer (hexpr : Takes deepest k expr) (h : Onward deepest k w) :
    Onward deepest k (forInitializer expr w) := by
  unfold Watched.forInitializer
  split
  · exact h.acceptAny
  · split
    · exact h.acceptAny.varDeclaration hexpr
    · exact (h.expressionStatement hexpr).mono (Nat.sub_le k 1)

theorem forCondition (hexpr : Takes deepest k expr) (h : Onward deepest k w) :
    Onward deepest k (forCondition expr w).2 := by
  unfold Watched.forCondition
  split
  · exact h.acceptAny
  · exact (((hexpr.keeps h).expect _ _).openJump _).emit _

theorem forIncrement (hexpr : Takes deepest k expr) (h : Onward deepest k w) (start : Nat) :
    Onward deepest k (forIncrement expr start w).2 := by
  unfold Watched.forIncrement
  split
  · exact h.acceptAny
  · exact ((((hexpr.keeps (h.openJump _)).emit _).expect _ _).emitLoop _).closeJump _

theorem forStatement (hexpr : Takes deepest k expr) (hstmt : Takes deepest k stmt) (h : Onward deepest k w) :
    Onward deepest k (forStatement expr stmt w) := by
  have hopened := (h.map (Compiler.left_stable k).openScope).expect .leftParen .openFor
  have hclauses := fun start => ((hopened.forInitializer hexpr).forCondition hexpr).forIncrement hexpr start
  have hbody := fun start again => (hstmt.keeps (hclauses start)).emitLoop again
  unfold Watched.forStatement
  dsimp only
  split
  · exact (((hbody _ _).closeJump _).emit _).closeScope
  · exact (hbody _ _).closeScope

/-- Every round of a block takes a token, since the declarations do. -/
theorem block {j : Nat} (hle : j ≤ k) (hdecl : ∀ i ≤ k, Takes deepest i decl) (h : Onward deepest j w)
    {rounds : Nat} (hrounds : j < rounds) : Onward deepest j (block decl w rounds) := by
  induction rounds generalizing w j with
  | zero => exact absurd hrounds (Nat.not_lt_zero j)
  | succ rounds ih =>
    have hroom := h.left.room
    unfold Watched.block
    split
    · exact h.expect _ _
    · rename_i hmore
      have hpos := h.exact.left.pos fun hend => by simp [Compiler.sees, hend] at hmore
      have htaken := hdecl w.compiler.rest.length (by omega) w h.exact
      exact (ih (by omega) (htaken.round (by omega)) (by omega)).mono (by omega)

theorem parameters {j : Nat} (h : Onward deepest j w) {rounds : Nat} (hrounds : j < rounds) :
    Onward deepest j (w.parameters rounds) := by
  induction rounds generalizing w j with
  | zero => exact absurd hrounds (Nat.not_lt_zero j)
  | succ rounds ih =>
    have hroom := h.left.room
    have hrest : ∀ d : Watched, Onward deepest w.compiler.rest.length d → Onward deepest j
        (let e := (d.declareName .parameterName).2.define (d.declareName .parameterName).1
        if e.compiler.sees .comma then Watched.parameters
          (e.accept.note (.round w.compiler e.accept.compiler)) rounds
        else e) := by
      intro d hd
      have hdefined := (hd.declareName .parameterName).define (d.declareName .parameterName).1
      dsimp only
      split
      · rename_i hcomma
        have hpos := hdefined.left.pos_of_sees hcomma (by decide)
        exact (ih (hdefined.accept.round (by omega)) (by omega)).mono (by omega)
      · exact hdefined.mono hroom
    have hcounted : Onward deepest w.compiler.rest.length (w.note (.counting w.compiler.body.function.arity)) :=
      h.exact.note trivial
    unfold Watched.parameters
    dsimp only
    split
    · exact hrest _ (h.exact.map ((Compiler.left_stable _).reportHere _ _))
    · exact hrest _ (hcounted.map ((Compiler.left_stable _).body _ _))

theorem functionBody (hdecl : ∀ j ≤ k, Takes deepest j decl) (h : Onward deepest k w) {fuel : Nat}
    (hfuel : k < fuel) (name : String) : Onward deepest k (functionBody decl fuel name w) := by
  have S := Compiler.left_stable k
  have hentered : Onward deepest k (w.enter name) :=
    ⟨S.openScope (S.body _ _ h.left), List.forall_mem_cons.mpr ⟨trivial, h.notes⟩⟩
  have hopened := hentered.expect .leftParen .openParameters
  have hbody : ∀ d : Watched, Onward deepest k d → Onward deepest k
      (w.leave (Watched.block decl ((d.expect .rightParen .closeParameters).expect .leftBrace .openBody)
        fuel)) := by
    intro d hd
    have hblock := ((hd.expect .rightParen .closeParameters).expect .leftBrace .openBody).block
      (Nat.le_refl k) hdecl hfuel
    exact ⟨S.emitConstant (S.body _ _ (S.finish hblock.left)) _,
      List.forall_mem_cons.mpr ⟨trivial, hblock.notes⟩⟩
  unfold Watched.functionBody
  dsimp only
  split
  · exact hbody _ hopened
  · exact hbody _ (hopened.parameters hfuel)

theorem funDeclaration (hdecl : ∀ j ≤ k, Takes deepest j decl) (h : Onward deepest k w) {fuel : Nat}
    (hfuel : k < fuel) :
    Onward deepest k (funDeclaration decl fuel w) :=
  (((h.declareName .functionName).completeLocal).functionBody hdecl hfuel _).define _

theorem skipStatement {j : Nat} (h : Onward deepest j w) {rounds : Nat} (hrounds : j < rounds) :
    Onward deepest j (w.skipStatement rounds) := by
  induction rounds generalizing w j with
  | zero => exact absurd hrounds (Nat.not_lt_zero j)
  | succ rounds ih =>
    have hroom := h.left.room
    unfold Watched.skipStatement
    split
    · exact h
    · rename_i hmore
      have hpos := h.exact.left.pos fun hend => by simp [Compiler.sees, hend] at hmore
      exact (ih (h.exact.accept.round (by omega)) (by omega)).mono (by omega)

theorem recover (h : Onward deepest k w) {fuel : Nat} (hfuel : k < fuel) :
    Onward deepest k (w.recover fuel) := by
  unfold Watched.recover
  split
  · exact (h.map ((Compiler.left_stable k).calm _)).skipStatement hfuel
  · exact h

/-- What follows the word with which a statement begins; if it begins with none, it is an expression. -/
theorem anyStatement (hexpr : ∀ j ≤ k + 1, Takes deepest j expr) (hstmt : Takes deepest k stmt)
    (hdecl : ∀ j ≤ k, Takes deepest j decl) (h : Onward deepest (k + 1) w) {fuel : Nat} (hfuel : k < fuel) :
    Onward deepest k (anyStatement expr stmt decl fuel w) := by
  have haccepted : Onward deepest k w.accept := h.accept
  have hexpr' := hexpr k (Nat.le_succ k)
  unfold Watched.anyStatement
  split
  · exact ((hexpr'.keeps haccepted).expect _ _).emit _
  · exact haccepted.forStatement hexpr' hstmt
  · exact haccepted.ifStatement hexpr' hstmt
  · exact haccepted.returnStatement hexpr'
  · exact haccepted.whileStatement hexpr' hstmt
  · exact ((haccepted.map (Compiler.left_stable k).openScope).block (Nat.le_refl k) hdecl hfuel).closeScope
  · exact h.expressionStatement (hexpr (k + 1) (Nat.le_refl _))

end

end Onward

/-- The word of a statement has fuel for the token that it takes; at the end of the input there is an
    expression at most. -/
theorem takes_statement_declaration (fuel : Nat) :
    (∀ k depth, 2 * k + 2 ≤ fuel → depth + fuel ≤ deepest + 1 → Takes deepest k (statement fuel depth)) ∧
      ∀ k depth, 2 * k + 3 ≤ fuel → depth + fuel ≤ deepest + 1 → Takes deepest k (declaration fuel depth) := by
  induction fuel with
  | zero => exact ⟨fun k depth hfuel => absurd hfuel (by omega), fun k depth hfuel => absurd hfuel (by omega)⟩
  | succ fuel ih =>
    obtain ⟨hstmt, hdecl⟩ := ih
    have hentered : ∀ {k depth : Nat} {w : Watched}, Onward deepest k w → depth + (fuel + 1) ≤ deepest + 1 →
        Onward deepest w.compiler.rest.length (w.note (.entered depth)) := by
      intro k depth w h hdepth
      exact h.exact.note (show depth ≤ deepest by omega)
    -- a declaration can be a statement and a statement an expression on the same tokens, so each
    -- has one level more
    have hexpr : ∀ {k depth : Nat}, depth + (fuel + 1) ≤ deepest + 1 → k < fuel →
        Takes deepest k (expression fuel (depth + 1) .assignment) :=
      fun hdepth hfuel => takes_expression fuel _ (by omega) (by decide) hfuel
    constructor
    · intro k depth hfuel hdepth w h
      have hroom := h.left.room
      rw [statement]
      refine (Onward.passed h.left ?_).mono (Nat.sub_le_sub_right hroom 1)
      have hbegun := hentered h hdepth
      cases hleft : w.compiler.rest.length with
      | zero =>
        rw [hleft] at hbegun
        rw [anyStatement, hbegun.left.atEnd]
        exact hbegun.expressionStatement (hexpr hdepth (by omega))
      | succ j =>
        rw [hleft] at hbegun
        exact hbegun.anyStatement (fun i hi => hexpr hdepth (by omega)) (hstmt j _ (by omega) (by omega))
          (fun i hi => hdecl i _ (by omega) (by omega)) (by omega)
    · intro k depth hfuel hdepth w h
      have hroom := h.left.room
      rw [declaration]
      refine (Onward.passed h.left ?_).mono (Nat.sub_le_sub_right hroom 1)
      have hbegun := hentered h hdepth
      unfold anyDeclaration
      refine Onward.recover ?_ (by omega)
      split
      · rename_i hkind
        have hpos := hbegun.left.pos fun hend => by rw [hend] at hkind; cases hkind
        exact hbegun.accept.funDeclaration (fun i hi => hdecl i _ (by omega) (by omega)) (by omega)
      · exact hbegun.accept.varDeclaration (hexpr hdepth (by omega))
      · exact hstmt _ _ (by omega) (by omega) _ hbegun

theorem Onward.program (h : Onward deepest k w) {fuel : Nat} (hfuel : 2 * k + 3 ≤ fuel)
    (hdepth : fuel ≤ deepest)
    {rounds : Nat} (hrounds : k < rounds) : Onward deepest k (program fuel w rounds) := by
  induction rounds generalizing w k with
  | zero => exact absurd hrounds (Nat.not_lt_zero k)
  | succ rounds ih =>
    have hroom := h.left.room
    unfold Watched.program
    split
    · exact h.acceptAny
    · rename_i hmore
      have hpos := h.exact.left.pos fun hend => by simp [Compiler.sees, hend] at hmore
      have htaken := (takes_statement_declaration fuel).2 _ 1 (by omega) (by omega) w h.exact
      exact (ih (htaken.round (by omega)) (by omega) (by omega)).mono (by omega)

theorem onward_watch {tokens : List Token} (hends : Ends tokens) :
    Onward (2 * tokens.length + 4) tokens.length (watch tokens) := by
  have hleft : (Compiler.start tokens).accept.Left tokens.length := Compiler.left_shift hends (Nat.le_succ _)
  have hstart : Onward (2 * tokens.length + 4) tokens.length { compiler := (Compiler.start tokens).accept } :=
    ⟨hleft, fun _ hnote => absurd hnote List.not_mem_nil⟩
  exact (hstart.noteScope.program (by omega) (Nat.le_refl _) (by omega)).note trivial

end Watched

/-! ### Sources -/

theorem Token.size_scanUpTo (count : Nat) (line : UInt32) (text : List Char) (found : Array Token) :
    (scanUpTo count line text found).size ≤ found.size + count := by
  induction count generalizing line text found with
  | zero => exact Nat.le_refl _
  | succ count ih =>
    rw [scanUpTo]
    dsimp only
    split
    · rw [Array.size_push]
      omega
    · have hrest := ih (next line text).1.line (next line text).2 (found.push (next line text).1)
      rw [Array.size_push] at hrest
      omega

/-- A text has at most one token for each character and one for its end. -/
theorem Token.length_scan (source : String) : (scan source).length ≤ source.length + 1 := by
  have hsize := size_scanUpTo (source.length + 1) 1 source.toList #[]
  rw [scan, Array.length_toList]
  simpa using hsize

namespace Watched

/-- The compilation of any text ends: it has finitely many tokens, and the compilation that is watched gives
    the same result without its fuel running out. Nothing is nested deeper than twice the number of tokens and
    four; a round of a loop that goes on takes a token, and so does an expression, a statement or a
    declaration unless it is entered at the end of the input. From any state whatever, the levels of nesting
    that an expression, a statement or a declaration needs are bounded by the tokens that are left: at the end
    of the input, they are one, two and three. -/
theorem compilation_ends (source : String) :
    (Ends (Token.scan source) ∧ (Token.scan source).length ≤ source.length + 1) ∧
    compileTokens (Token.scan source) =
      { finished := (watch (Token.scan source)).compiler.finish.2.finished.toList
        result :=
          if (watch (Token.scan source)).compiler.finish.2.diagnostics.isEmpty then
            .ok (watch (Token.scan source)).compiler.finish.1
          else .error (watch (Token.scan source)).compiler.finish.2.diagnostics.toList } ∧
    (∀ note ∈ (watch (Token.scan source)).notes, note.GetsOn (2 * (Token.scan source).length + 4)) ∧
    ∀ (c : Compiler) (depth : Nat), Ends (c.current :: c.rest) →
      (∀ level, level ≠ .none → ∀ note ∈ (expression (c.rest.length + 1) depth level { compiler := c }).notes,
        note.GetsOn (depth + c.rest.length)) ∧
      (∀ note ∈ (statement (2 * c.rest.length + 2) depth { compiler := c }).notes,
        note.GetsOn (depth + 2 * c.rest.length + 1)) ∧
      ∀ note ∈ (declaration (2 * c.rest.length + 3) depth { compiler := c }).notes,
        note.GetsOn (depth + 2 * c.rest.length + 2) := by
  refine ⟨⟨Token.ends_scan source, Token.length_scan source⟩, compileTokens_eq _,
    (onward_watch (Token.ends_scan source)).notes, fun c depth hends => ?_⟩
  have hfresh : ∀ deepest, Onward deepest c.rest.length { compiler := c } :=
    fun _ => ⟨⟨hends, Nat.le_refl _⟩, fun _ hnote => absurd hnote List.not_mem_nil⟩
  refine ⟨fun level hlevel => ?_, ?_, ?_⟩
  · exact (takes_expression _ depth (by omega) hlevel (Nat.lt_succ_self _) _ (hfresh _)).notes
  · exact ((takes_statement_declaration _).1 _ depth (Nat.le_refl _) (by omega) _ (hfresh _)).notes
  · exact ((takes_statement_declaration _).2 _ depth (Nat.le_refl _) (by omega) _ (hfresh _)).notes

/-- The fuel does not run out on a text that breaks off in the clauses of a loop, with a function among them. -/
theorem compilation_ends_broken :
    Note.exhausted ∉ (watch (Token.scan "for (fun f(a, ) \x7b if ; @ while")).notes :=
  fun h => (compilation_ends "for (fun f(a, ) \x7b if ; @ while").2.2.1 _ h

end Watched

end Lox
