import Lox.Proofs.Simulation.Scope

/-! # The code of statements

A machine that runs the code of a statement follows its execution, and comes to the end of the code with the
stack as it was, or to a return. A declaration leaves its value on the stack if it makes a local. -/

namespace Lox

open Lox.Tree (State Library Run)
open Machine (Follows)

/-- The functions that are declared in the code of a call are in the library, as objects inside the
    function that is called. -/
def Stage.Declares (E : Stage) (site : Site) (origin : Nat) (ds : List Declared) : Prop :=
  ∀ d ∈ ds, E.library.Holds origin (some d.name) d.routine ∧
    E.library.object origin d.routine.place = site.id.child d.index

section

variable {E : Stage} {site : Site} {names : List String} {fuel : Nat}
    {call : Tree.Value → List Tree.Value → Run Tree.Value}
  {locals : List Local} {scope : Scope} {place count height : Nat} {s : State} {m : Machine}

/-! ### Clauses -/

theorem Variable.followsValue (hroom : site.function.chunk.constants.length ≤ Chunk.maxConstants)
    (hcall : E.FollowsCalls site fuel call) (htracks : Local.Tracks locals names) (v : Variable)
    (hallowed : ∀ e ∈ v.value, e.Allowed locals)
    (hlaid : (v.valueCode locals count height).Laid site.function.chunk place count)
    (h : E.Shows site names place [] s m) :
    Follows E.host E.Fits fuel m (v.initial call s) fun value s' m' =>
      E.Shows site names (place + v.valueLength) [value] s' m' := by
  obtain ⟨name, nameLine, value, line⟩ := v
  cases value with
  | none => exact h.follows_push hlaid.single trivial fun _ _ => rfl
  | some e => exact e.follows hroom hcall htracks (hallowed e rfl) hlaid h

/-- The initial value of a variable is computed in the scope before the declaration, and then it
    becomes a variable. -/
theorem Variable.follows (hroom : site.function.chunk.constants.length ≤ Chunk.maxConstants)
    (hcall : E.FollowsCalls site fuel call) (v : Variable) (hallowed : v.Allowed scope) (hscope : scope.Roomy)
    (hlaid : (v.code scope count).Laid site.function.chunk place count)
    (h : E.Shows site scope.names place [] s m) :
    Follows E.host E.Fits fuel m (v.initial call s) (fun value s' m' =>
      E.Shows site scope.names (place + v.valueLength) [value] s' m') ∧
    scope.Declares site.function.chunk (place + v.valueLength) v.name := by
  obtain ⟨-, hvalue⟩ := hallowed
  unfold Variable.code at hlaid
  by_cases hdepth : scope.depth = 0
  · rw [if_pos hdepth] at hvalue hlaid
    obtain ⟨hhead, hdefine⟩ := Fragment.laid_append.mp hlaid
    obtain ⟨hname, hfirst⟩ := Fragment.laid_append.mp hhead
    simp only [Fragment.size_append, Fragment.size_pool, Variable.size_valueCode, Nat.zero_add] at hdefine
    exact ⟨v.followsValue hroom hcall hscope.tracks hvalue hfirst h,
      fun _ => ⟨_, hname.pool hroom, hdefine.single⟩⟩
  · rw [if_neg hdepth] at hvalue hlaid
    refine ⟨v.followsValue hroom hcall (hscope.tracks_declared v.name) hvalue hlaid h, ?_⟩
    exact fun hglobal => absurd hglobal hdepth

theorem Initializer.follows (hroom : site.function.chunk.constants.length ≤ Chunk.maxConstants)
    (hcall : E.FollowsCalls site fuel call) (i : Initializer) (hallowed : i.Allowed scope)
    (hscope : scope.Roomy)
    (hdepth : scope.depth ≠ 0) (hlaid : (i.code scope count).Laid site.function.chunk place count)
    (h : E.Shows site scope.names place [] s m) :
    Follows E.host E.Fits fuel m (i.exec call s) fun _ s' m' =>
      E.Shows site (scope.after i.name?).names (place + i.length) [] s' m' := by
  cases i with
  | empty => exact .ok h
  | var v =>
    obtain ⟨hvalue, hdeclares⟩ := v.follows hroom hcall hallowed hscope hlaid h
    refine hvalue.bind fun value s₁ m₁ h₁ => ?_
    have hdeclare := h₁.follows_declare fuel hdeclares
    rw [beq_false_of_ne hdepth] at hdeclare
    exact hdeclare
  | expression value line =>
    obtain ⟨hfirst, hpop⟩ := Fragment.laid_append.mp hlaid
    rw [Expr.size_code] at hpop
    refine (value.follows hroom hcall hscope.tracks hallowed hfirst h).bind fun v s₁ m₁ h₁ => ?_
    obtain ⟨m₂, hstep, h₂⟩ := h₁.pop_step hpop.single
    exact .next hstep (.ok h₂)

/-- A test with `rest` bytes from there to the end of the loop, where the falsy value is dropped. -/
theorem Stmt.followsCondition (hroom : site.function.chunk.constants.length ≤ Chunk.maxConstants)
    (hcall : E.FollowsCalls site fuel call) (htracks : Local.Tracks locals names) {condition : Option Expr}
    {line line' : UInt32} {rest count' : Nat} (hallowed : ∀ e ∈ condition, e.Allowed locals)
    (hjump : condition.isSome → 1 + rest ≤ Compiler.maxJump)
    (hlaid : (Stmt.conditionCode locals count height line rest condition).Laid site.function.chunk place count)
    (hexit : (Stmt.exitCode line' height condition).Laid site.function.chunk
      (place + Stmt.conditionLength condition + rest) count')
    (h : E.Shows site names place [] s m) :
    Follows E.host E.Fits fuel m (Stmt.holds call condition s) fun b s' m' =>
      E.Shows site names (if b then place + Stmt.conditionLength condition
        else place + Stmt.conditionLength condition + rest + if condition.isSome then 1 else 0) [] s' m' := by
  cases condition with
  | none => exact .ok h
  | some e =>
    obtain ⟨hhead, hpop⟩ := Fragment.laid_append.mp hlaid
    obtain ⟨hfirst, htest⟩ := Fragment.laid_append.mp hhead
    simp only [Fragment.size_append, Fragment.size_single, Expr.size_code,
      Instruction.size_jumpIfFalse] at hpop htest
    refine (e.follows hroom hcall htracks (hallowed e rfl) hfirst h).bind fun v s₁ m₁ h₁ => ?_
    obtain ⟨m₂, hstep, h₂⟩ := h₁.jumpIfFalse_step (hjump rfl) htest.single
    refine .next hstep ?_
    simp only [Stmt.conditionLength, Option.elim_some] at hexit ⊢
    by_cases hfalsy : v.isFalsy = true
    · have hplace : place + e.length + 3 + (1 + rest) = place + (e.length + 4) + rest := by omega
      rw [if_pos hfalsy, hplace] at h₂
      obtain ⟨m₃, hstep', h₃⟩ := h₂.pop_step hexit.single
      refine .next hstep' (.ok ?_)
      rw [hfalsy]
      exact h₃
    · rw [if_neg hfalsy] at h₂
      obtain ⟨m₃, hstep', h₃⟩ := h₂.pop_step hpop.single
      refine .next hstep' (.ok ?_)
      rw [Bool.eq_false_iff.mpr hfalsy]
      exact h₃

/-- The third clause is jumped over on the way to the body. -/
theorem Stmt.skipIncrement {increment : Option (Expr × UInt32)} {line : UInt32} {back : Nat}
    (hback : ∀ e ∈ increment, back + e.1.length + 7 ≤ Compiler.maxJump)
    (hlaid : (Stmt.incrementCode locals count height line back increment).Laid site.function.chunk place count)
    (h : E.Shows site names place [] s m) :
    ∃ n m', Machine.advance E.host m n = .running m' ∧
      E.Shows site names (place + Stmt.incrementLength increment) [] s m' := by
  cases increment with
  | none => exact ⟨0, m, rfl, h⟩
  | some clause =>
    obtain ⟨e, close⟩ := clause
    have hfits := hback (e, close) rfl
    dsimp only at hfits
    obtain ⟨hhead, -⟩ := Fragment.laid_append.mp hlaid
    obtain ⟨hhead, -⟩ := Fragment.laid_append.mp hhead
    obtain ⟨hover, -⟩ := Fragment.laid_append.mp hhead
    obtain ⟨m₁, hstep, h₁⟩ := h.jump_step (by omega) hover.single
    have hplace : place + 3 + (e.length + 4) = place + (e.length + 7) := by omega
    rw [hplace] at h₁
    exact ⟨1, m₁, Machine.advance_one hstep, h₁⟩

/-- The end of the body leads to the third clause if there is one, and then to the condition. -/
theorem Stmt.followsIncrement (hroom : site.function.chunk.constants.length ≤ Chunk.maxConstants)
    (hcall : E.FollowsCalls site fuel call) (htracks : Local.Tracks locals names) {condition : Option Expr}
    {increment : Option (Expr × UInt32)} {line bodyLine : UInt32} {bodyLength height' count' : Nat}
    (hallowed : ∀ e ∈ increment, e.1.Allowed locals)
    (hback : ∀ e ∈ increment, Stmt.conditionLength condition + e.1.length + 7 ≤ Compiler.maxJump)
    (hround : Stmt.roundLength condition increment bodyLength ≤ Compiler.maxJump)
    (hlaid : (Stmt.incrementCode locals count height line (Stmt.conditionLength condition) increment).Laid
      site.function.chunk (place + Stmt.conditionLength condition) count)
    (hloop : (Fragment.single bodyLine height'
      (.loop (operandWord (Stmt.roundLength condition increment bodyLength)))).Laid
      site.function.chunk (place + Stmt.conditionLength condition + Stmt.incrementLength increment +
        bodyLength) count')
    (h : E.Shows site names (place + Stmt.conditionLength condition + Stmt.incrementLength increment +
      bodyLength) [] s m) :
    ∃ m', Machine.step E.host m = .next m' ∧
      Follows E.host E.Fits fuel m' (Stmt.increase call increment s) fun _ s' m'' =>
        E.Shows site names place [] s' m'' := by
  cases increment with
  | none =>
    simp only [Stmt.incrementLength, Stmt.roundLength, Option.elim_none] at *
    obtain ⟨m₁, hstep, h₁⟩ := h.loop_step hround (by omega) hloop.single
    have hplace : place + Stmt.conditionLength condition + 0 + bodyLength + 3 -
        (Stmt.conditionLength condition + bodyLength + 3) = place := by omega
    rw [hplace] at h₁
    exact ⟨m₁, hstep, .ok h₁⟩
  | some clause =>
    obtain ⟨e, close⟩ := clause
    have hfits := hback (e, close) rfl
    simp only [Stmt.incrementLength, Stmt.roundLength, Option.elim_some] at hfits hround hloop h
    obtain ⟨hhead, hagain⟩ := Fragment.laid_append.mp hlaid
    obtain ⟨hhead, hpop⟩ := Fragment.laid_append.mp hhead
    obtain ⟨-, hfirst⟩ := Fragment.laid_append.mp hhead
    simp only [Fragment.size_append, Fragment.size_single, Expr.size_code, Instruction.size_jump,
      Instruction.size_pop, Fragment.constants_single, List.length_nil, Nat.add_zero] at hfirst hpop hagain
    obtain ⟨m₁, hstep, h₁⟩ := h.loop_step hround (by omega) hloop.single
    have hplace : place + Stmt.conditionLength condition + (e.length + 7) + bodyLength + 3 -
        (e.length + 4 + bodyLength + 3) = place + Stmt.conditionLength condition + 3 := by omega
    rw [hplace] at h₁
    refine ⟨m₁, hstep, ?_⟩
    refine (e.follows hroom hcall htracks (hallowed _ rfl) hfirst h₁).bind fun v s₂ m₂ h₂ => ?_
    rw [Nat.add_assoc (place + _)] at h₂
    obtain ⟨m₃, hstep', h₃⟩ := h₂.pop_step hpop.single
    obtain ⟨m₄, hstep'', h₄⟩ := h₃.loop_step hfits (by omega) hagain.single
    have hplace' : place + Stmt.conditionLength condition + (3 + e.length) + 1 + 3 -
        (Stmt.conditionLength condition + e.length + 7) = place := by omega
    rw [hplace'] at h₄
    exact .next hstep' (.next hstep'' (.ok h₄))

/-- A loop with its clauses, around a body that is followed. -/
theorem Stmt.followsLoop (hroom : site.function.chunk.constants.length ≤ Chunk.maxConstants)
    (hcall : E.FollowsCalls site fuel call) (htracks : Local.Tracks locals names) {condition : Option Expr}
    {increment : Option (Expr × UInt32)} {line bodyLine : UInt32} {bodyLength count₁ count₂ count₃ : Nat}
    {body : Run (Option Tree.Value)} (hcondition : ∀ e ∈ condition, e.Allowed locals)
    (hincrement : ∀ e ∈ increment, e.1.Allowed locals) (hfits : Stmt.ForFits condition increment bodyLength)
    (hlaid₁ : (Stmt.conditionCode locals count height line (Stmt.incrementLength increment + bodyLength + 3)
      condition).Laid site.function.chunk place count)
    (hlaid₂ : (Stmt.incrementCode locals count₁ height line (Stmt.conditionLength condition) increment).Laid
      site.function.chunk (place + Stmt.conditionLength condition) count₁)
    (hbody : ∀ {s m},
      E.Shows site names (place + Stmt.conditionLength condition + Stmt.incrementLength increment) [] s m →
      Follows E.host E.Fits fuel m (body s)
        (E.Ends site names (place + Stmt.conditionLength condition + Stmt.incrementLength increment +
          bodyLength)))
    (hloop : (Fragment.single bodyLine height
      (.loop (operandWord (Stmt.roundLength condition increment bodyLength)))).Laid
      site.function.chunk (place + Stmt.conditionLength condition + Stmt.incrementLength increment +
        bodyLength) count₂)
    (hexit : (Stmt.exitCode bodyLine height condition).Laid site.function.chunk
      (place + Stmt.conditionLength condition + Stmt.incrementLength increment + bodyLength + 3) count₃)
    (h : E.Shows site names place [] s m) :
    Follows E.host E.Fits fuel m
      (Tree.repeatWhile (Stmt.holds call condition) body (Stmt.increase call increment) fuel s)
      (E.Ends site names (place + Stmt.conditionLength condition + Stmt.incrementLength increment +
        bodyLength + 3 +
        if condition.isSome then 1 else 0)) := by
  have hrest : place + Stmt.conditionLength condition + (Stmt.incrementLength increment + bodyLength + 3) =
      place + Stmt.conditionLength condition + Stmt.incrementLength increment + bodyLength + 3 := by omega
  refine Stage.follows_repeatWhile ?_ hbody ?_ (Nat.le_refl fuel) h
  · intro s₁ m₁ h₁
    rw [← hrest] at hexit ⊢
    refine (Stmt.followsCondition hroom hcall htracks hcondition hfits.exit hlaid₁ hexit h₁).trans
      fun b s₂ m₂ h₂ => ?_
    cases b with
    | false => exact .ok h₂
    | true =>
      obtain ⟨n, m₃, hrun, h₃⟩ := Stmt.skipIncrement hfits.back hlaid₂ h₂
      exact .after hrun (.ok h₃)
  · intro s₁ m₁ h₁
    exact Stmt.followsIncrement hroom hcall htracks hincrement hfits.back hfits.round hlaid₂ hloop h₁

/-- The code of a `while` loop is that of a `for` loop with only a second clause. -/
theorem Stmt.code_whileLoop (condition : Expr) (line : UInt32) (body : Stmt) (scope : Scope) (count : Nat) :
    (Stmt.whileLoop condition line body).code scope count =
      Stmt.conditionCode scope.locals count scope.height line (Stmt.incrementLength none + body.length + 3)
        (some condition) ++ body.code scope
          (count + (condition.code scope.locals count scope.height).constants.length) ++
      .single body.endLine scope.height
        (.loop (operandWord (Stmt.roundLength (some condition) none body.length))) ++
      Stmt.exitCode body.endLine scope.height (some condition) := by
  have hrest : 1 + (Stmt.incrementLength none + body.length + 3) = body.length + 4 := by
    simp only [Stmt.incrementLength, Option.elim_none]
    omega
  rw [Stmt.code, Stmt.conditionCode, hrest]
  rfl

theorem Stmt.constants_conditionCode_some (e : Expr) (line : UInt32) (rest : Nat) :
    (Stmt.conditionCode locals count height line rest (some e)).constants =
      (e.code locals count height).constants := by
  simp [Stmt.conditionCode]

/-- The way back of a `while` loop is its longest jump. -/
theorem Stmt.ForFits.whileLoop {condition : Expr} {bodyLength : Nat}
    (h : condition.length + 4 + bodyLength + 3 ≤ Compiler.maxJump) :
    Stmt.ForFits (some condition) none bodyLength := by
  refine ⟨fun _ => ?_, fun e he => absurd he (Option.not_mem_none e), h⟩
  simp only [Stmt.incrementLength, Option.elim_none]
  omega

/-! ### Statements and declarations -/

variable {origin : Nat}

theorem Stage.declares_append {ds ds' : List Declared} :
    E.Declares site origin (ds ++ ds') ↔ E.Declares site origin ds ∧ E.Declares site origin ds' :=
  List.forall_mem_append

/-- A declared function is a constant, which is loaded and then becomes a variable. -/
theorem Decl.followsFunction (hroom : site.function.chunk.constants.length ≤ Chunk.maxConstants) {name : String}
    {routine : Routine}
    (hlaid : ((Decl.function name routine).code scope count).Laid site.function.chunk place count)
    (hdeclares : E.Declares site origin ((Decl.function name routine).declared scope count))
    (h : E.Shows site scope.names place [] s m) :
    Follows E.host E.Fits fuel m (Tree.declare (scope.depth == 0) name (.function origin (some name) routine) s)
      fun _ s' m' => E.Shows site (scope.declare name).names
        (place + (Decl.function name routine).length (scope.depth == 0)) [] s' m' := by
  rw [Decl.declared] at hdeclares
  obtain ⟨hholds, hobject⟩ := hdeclares _ List.mem_cons_self
  dsimp only at hholds hobject
  -- What the code has in both cases: the constant is pooled and loaded, and what follows makes it a variable.
  have hcode : ∃ index, index = (if scope.depth = 0 then count + 1 else count) ∧
      site.function.chunk.constants[index]? = some (.function (routine.function (some name))) ∧
      Instruction.read site.function.chunk.code place = .instruction (.constant (operandByte index)) ∧
      scope.Declares site.function.chunk (place + 2) name := by
    rw [Decl.code] at hlaid
    by_cases hdepth : scope.depth = 0
    · rw [if_pos hdepth] at hlaid ⊢
      obtain ⟨hhead, hdefine⟩ := Fragment.laid_append.mp hlaid
      obtain ⟨hhead, hload⟩ := Fragment.laid_append.mp hhead
      obtain ⟨hname, hfunction⟩ := Fragment.laid_append.mp hhead
      exact ⟨count + 1, rfl, Constant.pooled_singleton.mp hfunction.pooled, hload.single,
        fun _ => ⟨_, hname.pool hroom, hdefine.single⟩⟩
    · rw [if_neg hdepth] at hlaid ⊢
      obtain ⟨hfunction, hload⟩ := Fragment.laid_append.mp hlaid
      exact ⟨count, rfl, Constant.pooled_singleton.mp hfunction.pooled, hload.single,
        fun hglobal => absurd hglobal hdepth⟩
  obtain ⟨index, hindex, hconstant, hread, hdeclare⟩ := hcode
  rw [← hindex] at hobject
  have hsmall : index < 256 := Nat.lt_of_lt_of_le (List.getElem?_eq_some_iff.mp hconstant).1 hroom
  have hpush : ∃ m', Machine.step E.host m = .next m' ∧
      E.Shows site scope.names (place + 2) [.function origin (some name) routine] s m' := by
    refine h.push_step hread hholds fun m₁ _ => ?_
    rw [Stage.perform_constant m₁ _ (Chunk.constant?_operandByte hroom hconstant), toNat_operandByte hsmall,
      ← hobject]
    rfl
  obtain ⟨m₁, hstep, h₁⟩ := hpush
  have hplace : place + (Decl.function name routine).length (scope.depth == 0) =
      place + 2 + if scope.depth == 0 then 2 else 0 := by
    rw [Decl.length]
    split <;> omega
  rw [hplace]
  exact .next hstep (h₁.follows_declare fuel hdeclare)

mutual

theorem Stmt.follows (hroom : site.function.chunk.constants.length ≤ Chunk.maxConstants)
    (hcall : E.FollowsCalls site fuel call) {isScript : Bool} :
    ∀ (st : Stmt) {scope : Scope} {place count : Nat} {s : State}
    {m : Machine}, st.Allowed isScript scope → scope.Roomy →
    (st.code scope count).Laid site.function.chunk place count →
    E.Declares site origin (st.declared scope count) → E.Shows site scope.names place [] s m →
    Follows E.host E.Fits fuel m (st.exec call fuel origin s) (E.Ends site scope.names (place + st.length))
  | .print value line, scope, place, count, s, m, hallowed, hscope, hlaid, _, h => by
    rw [Stmt.exec, Stmt.length]
    rw [Stmt.code] at hlaid
    obtain ⟨hfirst, hlast⟩ := Fragment.laid_append.mp hlaid
    rw [Expr.size_code] at hlast
    refine (value.follows hroom hcall hscope.tracks hallowed hfirst h).bind fun v s₁ m₁ h₁ => ?_
    exact (h₁.follows_print hlast.single).bind fun _ s₂ m₂ h₂ => .ok h₂
  | .expression value line, scope, place, count, s, m, hallowed, hscope, hlaid, _, h => by
    rw [Stmt.exec, Stmt.length]
    rw [Stmt.code] at hlaid
    obtain ⟨hfirst, hlast⟩ := Fragment.laid_append.mp hlaid
    rw [Expr.size_code] at hlast
    refine (value.follows hroom hcall hscope.tracks hallowed hfirst h).bind fun v s₁ m₁ h₁ => ?_
    obtain ⟨m₂, hstep, h₂⟩ := h₁.pop_step hlast.single
    exact .next hstep (.ok h₂)
  | .ret none line, scope, place, count, s, m, _, _, hlaid, _, h => by
    rw [Stmt.exec]
    rw [Stmt.code] at hlaid
    obtain ⟨hnil, hret⟩ := Fragment.laid_append.mp hlaid
    obtain ⟨m₁, hstep, h₁⟩ := h.push_step (v := .nil) hnil.single trivial fun _ _ => rfl
    exact .next hstep (.ok ⟨scope.names, _, [], hret.single, h₁⟩)
  | .ret (some value) line, scope, place, count, s, m, hallowed, hscope, hlaid, _, h => by
    rw [Stmt.exec]
    rw [Stmt.code] at hlaid
    obtain ⟨hfirst, hret⟩ := Fragment.laid_append.mp hlaid
    rw [Expr.size_code] at hret
    refine (value.follows hroom hcall hscope.tracks hallowed.2 hfirst h).bind fun v s₁ m₁ h₁ => ?_
    exact .ok ⟨scope.names, _, [], hret.single, h₁⟩
  | .ifElse condition line thenPart none, scope, place, count, s, m, hallowed, hscope, hlaid, hdeclares, h => by
    obtain ⟨hcondition, hthen, hjump⟩ := hallowed
    rw [Stmt.exec, Stmt.length]
    rw [Stmt.declared] at hdeclares
    simp only [Stmt.code, Fragment.laid_append, Fragment.size_append, Fragment.size_single, Expr.size_code,
      Stmt.size_code,
      Fragment.constants_append, Fragment.constants_single, List.append_nil, ← Nat.add_assoc,
      Instruction.size_jumpIfFalse, Instruction.size_jump, Instruction.size_pop] at hlaid
    obtain ⟨⟨⟨⟨⟨hfirst, htest⟩, hpop⟩, hsecond⟩, hover⟩, hlast⟩ := hlaid
    refine (condition.follows hroom hcall hscope.tracks hcondition hfirst h).bind fun v s₁ m₁ h₁ => ?_
    obtain ⟨m₂, hstep, h₂⟩ := h₁.jumpIfFalse_step hjump htest.single
    refine .next hstep ?_
    split <;> rename_i hfalsy
    · rw [if_pos hfalsy] at h₂
      have h₃ : E.Shows site scope.names (place + condition.length + 3 + 1 + thenPart.length + 3) [v] s₁ m₂ :=
        h₂.congr (by omega)
      obtain ⟨m₄, hstep', h₄⟩ := h₃.pop_step hlast.single
      exact .next hstep' (.ok (h₄.congr (by omega)))
    · rw [if_neg hfalsy] at h₂
      obtain ⟨m₃, hstep', h₃⟩ := h₂.pop_step hpop.single
      refine .next hstep' ?_
      refine (thenPart.follows hroom hcall hthen hscope hsecond hdeclares h₃).trans fun result s₄ m₄ h₄ => ?_
      cases result with
      | some w => exact .ok h₄
      | none =>
        obtain ⟨m₅, hstep'', h₅⟩ := Stage.Shows.jump_step h₄ (by decide) hover.single
        exact .next hstep'' (.ok (h₅.congr (by omega)))
  | .ifElse condition line thenPart (some elsePart), scope, place, count, s, m, hallowed, hscope, hlaid,
      hdeclares, h => by
    obtain ⟨hcondition, hthen, helse, hjump, hjump'⟩ := hallowed
    rw [Stmt.exec, Stmt.length]
    rw [Stmt.declared] at hdeclares
    obtain ⟨hdeclares₁, hdeclares₂⟩ := Stage.declares_append.mp hdeclares
    simp only [Stmt.code, Fragment.laid_append, Fragment.size_append, Fragment.size_single, Expr.size_code,
      Stmt.size_code,
      Fragment.constants_append, Fragment.constants_single, List.append_nil, List.length_append,
      ← Nat.add_assoc, Instruction.size_jumpIfFalse, Instruction.size_jump, Instruction.size_pop] at hlaid
    obtain ⟨⟨⟨⟨⟨⟨hfirst, htest⟩, hpop⟩, hsecond⟩, hover⟩, hpop'⟩, hthird⟩ := hlaid
    refine (condition.follows hroom hcall hscope.tracks hcondition hfirst h).bind fun v s₁ m₁ h₁ => ?_
    obtain ⟨m₂, hstep, h₂⟩ := h₁.jumpIfFalse_step hjump htest.single
    refine .next hstep ?_
    split <;> rename_i hfalsy
    · rw [if_pos hfalsy] at h₂
      have h₃ : E.Shows site scope.names (place + condition.length + 3 + 1 + thenPart.length + 3) [v] s₁ m₂ :=
        h₂.congr (by omega)
      obtain ⟨m₄, hstep', h₄⟩ := h₃.pop_step hpop'.single
      have hplace : place + (condition.length + 8 + thenPart.length + elsePart.length) =
          place + condition.length + 3 + 1 + thenPart.length + 3 + 1 + elsePart.length := by omega
      rw [hplace]
      exact .next hstep' (elsePart.follows hroom hcall helse hscope hthird hdeclares₂ h₄)
    · rw [if_neg hfalsy] at h₂
      obtain ⟨m₃, hstep', h₃⟩ := h₂.pop_step hpop.single
      refine .next hstep' ?_
      refine (thenPart.follows hroom hcall hthen hscope hsecond hdeclares₁ h₃).trans fun result s₄ m₄ h₄ => ?_
      cases result with
      | some w => exact .ok h₄
      | none =>
        obtain ⟨m₅, hstep'', h₅⟩ := Stage.Shows.jump_step h₄ hjump' hover.single
        exact .next hstep'' (.ok (h₅.congr (by omega)))
  | .whileLoop condition line body, scope, place, count, s, m, hallowed, hscope, hlaid, hdeclares, h => by
    obtain ⟨hcondition, hbody, hjump⟩ := hallowed
    rw [Stmt.exec]
    rw [Stmt.declared] at hdeclares
    rw [Stmt.code_whileLoop] at hlaid
    simp only [Fragment.laid_append, Fragment.size_append, Fragment.size_single, Stmt.size_code,
      Stmt.size_conditionCode,
      Stmt.constants_conditionCode_some, ← Nat.add_assoc, Instruction.size_loop] at hlaid
    obtain ⟨⟨⟨hlaid₁, hlaid₂⟩, hloop⟩, hexit⟩ := hlaid
    have hnone :
        (Stmt.incrementCode scope.locals count scope.height line (Stmt.conditionLength (some condition))
          none).Laid
        site.function.chunk (place + Stmt.conditionLength (some condition)) count := ⟨trivial, trivial⟩
    have hloops := Stmt.followsLoop hroom hcall hscope.tracks (fun e he => Option.mem_some.mp he ▸ hcondition)
      (fun e he => absurd he (Option.not_mem_none e)) (Stmt.ForFits.whileLoop hjump) hlaid₁ hnone
      (fun h' => body.follows hroom hcall hbody hscope hlaid₂ hdeclares h') hloop hexit h
    have hplace : place + (Stmt.whileLoop condition line body).length =
        place + Stmt.conditionLength (some condition) + Stmt.incrementLength none + body.length + 3 + 1 := by
      simp only [Stmt.length, Stmt.conditionLength, Stmt.incrementLength, Option.elim_some, Option.elim_none]
      omega
    rw [hplace]
    exact hloops
  | .forLoop initializer condition line increment body, scope, place, count, s, m, hallowed, hscope, hlaid,
      hdeclares, h => by
    obtain ⟨hfirst, hcondition, hincrement, hbody, hfits⟩ := hallowed
    have hinner' : scope.inner.Roomy := hscope
    have hinside := hinner'.after hfirst.admits
    have hinner : scope.inner.depth ≠ 0 := Nat.succ_ne_zero _
    rw [Stmt.exec]
    rw [Stmt.declared] at hdeclares
    simp only [Stmt.code, Fragment.laid_append, Fragment.size_append, Fragment.size_single, Stmt.size_code,
      Stmt.size_conditionCode, Stmt.size_incrementCode, Stmt.size_exitCode, Initializer.size_code _ _ _ hinner,
      Fragment.constants_append, List.length_append, ← Nat.add_assoc, Instruction.size_loop,
      Scope.height_after_sub] at hlaid
    obtain ⟨⟨⟨⟨⟨⟨hlaid₁, hlaid₂⟩, hlaid₃⟩, hlaid₄⟩, hloop⟩, hexit⟩, hpops⟩ := hlaid
    have hlength : initializer.name?.toList.length = if initializer.name?.isSome then 1 else 0 := by
      cases initializer.name? <;> rfl
    have hplace : place + (Stmt.forLoop initializer condition line increment body).length =
        place + initializer.length + Stmt.conditionLength condition + Stmt.incrementLength increment +
          body.length + 3 + (if condition.isSome then 1 else 0) + initializer.name?.toList.length := by
      rw [Stmt.length, hlength]
      omega
    rw [← hlength] at hpops
    rw [hplace]
    refine Stage.Shows.follows_inScope ?_ hpops ?_
    · rw [← h.names, List.length_map]
    rw [← Scope.names_after_inner]
    refine (initializer.follows hroom hcall hfirst hinner' hinner hlaid₁ h).bind fun _ s₁ m₁ h₁ => ?_
    exact Stmt.followsLoop hroom hcall hinside.tracks hcondition hincrement hfits hlaid₂ hlaid₃
      (fun h' => body.follows hroom hcall hbody hinside hlaid₄ hdeclares h') hloop hexit h₁
  | .block declarations line, scope, place, count, s, m, hallowed, hscope, hlaid, hdeclares, h => by
    rw [Stmt.exec, Stmt.length]
    rw [Stmt.declared] at hdeclares
    rw [Stmt.code] at hlaid
    obtain ⟨hfirst, hpops⟩ := Fragment.laid_append.mp hlaid
    have hglobal : (scope.inner.depth == 0) = false := rfl
    have hall := Decl.followsAll hroom hcall declarations hallowed hscope hfirst hdeclares h
    have hlength : (declarations.filterMap Decl.name?).reverse.length =
        (declarations.filterMap Decl.name?).length :=
      List.length_reverse
    rw [Decl.size_codes, hglobal, ← hlength] at hpops
    rw [hglobal, Scope.names_afterAll_inner] at hall
    rw [← hlength, ← Nat.add_assoc]
    refine Stage.Shows.follows_inScope ?_ hpops hall
    rw [← h.names, List.length_map]

theorem Decl.follows (hroom : site.function.chunk.constants.length ≤ Chunk.maxConstants)
    (hcall : E.FollowsCalls site fuel call) {isScript : Bool} :
    ∀ (d : Decl) {scope : Scope} {place count : Nat} {s : State}
    {m : Machine}, d.Allowed isScript scope → scope.Roomy →
    (d.code scope count).Laid site.function.chunk place count →
    E.Declares site origin (d.declared scope count) → E.Shows site scope.names place [] s m →
    Follows E.host E.Fits fuel m (d.exec call fuel origin (scope.depth == 0) s)
      (E.Ends site (scope.after d.name?).names (place + d.length (scope.depth == 0)))
  | .var v, scope, place, count, s, m, hallowed, hscope, hlaid, _, h => by
    rw [Decl.exec]
    obtain ⟨hvalue, hdeclare⟩ := v.follows hroom hcall hallowed hscope hlaid h
    refine hvalue.bind fun value s₁ m₁ h₁ => ?_
    refine (h₁.follows_declare fuel hdeclare).bind fun _ s₂ m₂ h₂ => .ok ?_
    exact h₂.congr (by rw [Decl.length, Variable.length, Nat.add_assoc])
  | .function name routine, scope, place, count, s, m, _, _, hlaid, hdeclares, h => by
    rw [Decl.exec]
    exact (Decl.followsFunction hroom hlaid hdeclares h).bind fun _ s₁ m₁ h₁ => .ok h₁
  | .statement st, scope, place, count, s, m, hallowed, hscope, hlaid, hdeclares, h => by
    rw [Decl.exec]
    exact st.follows hroom hcall hallowed hscope hlaid hdeclares h

theorem Decl.followsAll (hroom : site.function.chunk.constants.length ≤ Chunk.maxConstants)
    (hcall : E.FollowsCalls site fuel call) {isScript : Bool} :
    ∀ (ds : List Decl) {scope : Scope} {place count : Nat}
    {s : State} {m : Machine}, Decl.AllAllowed isScript scope ds → scope.Roomy →
    (Decl.codes scope count ds).Laid site.function.chunk place count →
      E.Declares site origin (Decl.declaredAll scope count ds) →
    E.Shows site scope.names place [] s m →
    Follows E.host E.Fits fuel m (Decl.execAll call fuel origin (scope.depth == 0) ds s)
      (E.Ends site (scope.afterAll ds).names (place + Decl.lengths (scope.depth == 0) ds))
  | [], scope, place, count, s, m, _, _, _, _, h => by
    rw [Decl.execAll]
    exact .ok h
  | d :: ds, scope, place, count, s, m, hallowed, hscope, hlaid, hdeclares, h => by
    obtain ⟨hd, hds⟩ := hallowed
    rw [Decl.execAll, Decl.lengths, ← Nat.add_assoc]
    rw [Decl.declaredAll] at hdeclares
    obtain ⟨hdeclares₁, hdeclares₂⟩ := Stage.declares_append.mp hdeclares
    rw [Decl.codes] at hlaid
    obtain ⟨hfirst, hrest⟩ := Fragment.laid_append.mp hlaid
    rw [Decl.size_code] at hrest
    refine (d.follows hroom hcall hd hscope hfirst hdeclares₁ h).bind fun result s₁ m₁ h₁ => ?_
    cases result with
    | some v => exact .ok h₁
    | none =>
      have hall := Decl.followsAll hroom hcall ds hds (hscope.after hd.admits) hrest hdeclares₂ h₁
      rw [Scope.depth_after] at hall
      exact hall

end

end

end Lox
