import Lox.Proofs.Flow

/-! # Heights along the code of statements

The code of a statement leads from the height of its scope back to it, whatever way it takes; the code of a
declaration leads to the height of the scope after it. So the function of a program or routine that obeys the
static rules flows. -/

namespace Lox

/-! ### Scopes -/

/-- The locals of a scope are not too many. -/
def Scope.Roomy (scope : Scope) : Prop := scope.locals.length ≤ Compiler.maxLocals

namespace Scope

variable {scope : Scope}

theorem Roomy.within (h : scope.Roomy) : Local.Within scope.locals scope.height := by
  intro name slot loc hfound _
  have hlt := Local.resolve?_lt hfound
  exact ⟨hlt, Nat.lt_of_lt_of_le hlt h⟩

/-- A new local is not among those that its own initial value can mention. -/
theorem Roomy.within_declared (h : scope.Roomy) (name : String) :
    Local.Within (⟨name, none⟩ :: scope.locals) scope.height := by
  intro other slot loc hfound hdepth
  rw [Local.resolve?] at hfound
  split at hfound
  · cases hfound
    exact absurd rfl hdepth
  · exact h.within other slot loc hfound hdepth

theorem Roomy.after (h : scope.Roomy) {name : Option String} (hname : ∀ n ∈ name, scope.Admits n) :
    (scope.after name).Roomy := by
  cases name with
  | none => exact h
  | some name =>
    unfold Scope.after Scope.declare
    dsimp only
    split <;> rename_i hdepth
    · exact h
    · exact (hname name rfl hdepth).2

theorem height_declare (scope : Scope) (name : String) :
    (scope.declare name).height = scope.height + if scope.depth = 0 then 0 else 1 := by
  unfold declare
  split <;> rfl

theorem height_le_after_inner (scope : Scope) (name : Option String) :
    scope.height ≤ (scope.inner.after name).height := by
  cases name with
  | none => exact Nat.le_refl _
  | some name =>
    rw [Scope.after, height_declare]
    exact Nat.le_add_right _ _

theorem height_afterAll_inner (scope : Scope) (ds : List Decl) :
    (scope.inner.afterAll ds).height = scope.height + (ds.filterMap Decl.name?).length := by
  rw [afterAll_eq _ (Nat.succ_ne_zero _)]
  simp [height, inner, Nat.add_comm]

end Scope

theorem Decl.Allowed.admits {isScript : Bool} {scope : Scope} {d : Decl} (h : d.Allowed isScript scope) :
    ∀ name ∈ d.name?, scope.Admits name := by
  intro name hname
  cases d with
  | var v =>
    cases hname
    exact h.1
  | function name' routine =>
    cases hname
    exact h.1
  | statement s => cases hname

theorem Initializer.Allowed.admits {scope : Scope} {i : Initializer} (h : i.Allowed scope) :
    ∀ name ∈ i.name?, scope.Admits name := by
  intro name hname
  cases i with
  | empty | expression => cases hname
  | var v =>
    cases hname
    exact h.1

/-! ### Clauses -/

section

variable {chunk : Chunk} {depth : Nat → Option Nat} {locals : List Local} {scope : Scope}
    {place count height : Nat}

/-- A jump back over `n` bytes, itself included. -/
theorem flows_loop {line : UInt32} {n : Nat} (hn : n ≤ Compiler.maxJump) (hle : n ≤ place + 3)
    (hexit : depth (place + 3 - n) = some height) :
    (Fragment.single line height (.loop (operandWord n))).Flows chunk depth place := by
  have hword : (operandWord n).toNat = n := toNat_operandWord hn
  refine Fragment.flows_single.mpr ⟨Nat.zero_le _, ?_, fun p hp => ?_⟩
  · rw [Instruction.OperandsFit, hword]
    exact ⟨hle, hn⟩
  · rw [List.mem_singleton.mp hp, hword]
    exact hexit

theorem Variable.flowsValue (hroom : chunk.constants.length ≤ Chunk.maxConstants) (v : Variable)
    (hallowed : ∀ e ∈ v.value, e.Allowed locals) (hwithin : Local.Within locals height)
    (hstands : (v.valueCode locals count height).Stands chunk depth place count)
    (hexit : depth (place + v.valueLength) = some (height + 1)) :
    depth place = some height ∧ (v.valueCode locals count height).Flows chunk depth place := by
  obtain ⟨name, nameLine, value, line⟩ := v
  cases value with
  | none => exact ⟨Fragment.stands_single.mp hstands, Fragment.flows_straight (Nat.zero_le _) trivial rfl hexit⟩
  | some e => exact e.flows hroom (hallowed e rfl) hwithin hstands hexit

theorem Variable.flows (hroom : chunk.constants.length ≤ Chunk.maxConstants) (v : Variable)
    (hallowed : v.Allowed scope)
    (hscope : scope.Roomy) (hstands : (v.code scope count).Stands chunk depth place count)
    (hexit : depth (place + v.length (scope.depth == 0)) = some (scope.declare v.name).height) :
    depth place = some scope.height ∧ (v.code scope count).Flows chunk depth place := by
  obtain ⟨-, hvalue⟩ := hallowed
  rw [Scope.height_declare] at hexit
  unfold Variable.code Variable.length at *
  by_cases hdepth : scope.depth = 0
  · simp only [hdepth, if_true, beq_self_eq_true, Nat.add_zero] at hvalue hstands hexit ⊢
    simp only [Fragment.stands_append, Fragment.stands_pool, Fragment.stands_single, Fragment.size_append,
      Fragment.size_pool, Variable.size_valueCode, Fragment.constants_pool, Nat.zero_add] at hstands
    obtain ⟨⟨hname, hfirst⟩, hdefine⟩ := hstands
    obtain ⟨hentry, hflows⟩ := v.flowsValue hroom hvalue hscope.within hfirst hdefine
    refine ⟨hentry, ?_⟩
    simp only [Fragment.flows_append, Fragment.size_append, Fragment.size_pool, Variable.size_valueCode,
      Nat.zero_add]
    refine ⟨⟨trivial, hflows⟩, Fragment.flows_straight (Nat.le_add_left 1 _) ?_ rfl hexit⟩
    exact ⟨v.name, Chunk.constant?_operandByte hroom hname⟩
  · simp only [hdepth, if_false, beq_eq_false_iff_ne.mpr hdepth, Bool.false_eq_true,
      Nat.add_zero] at hvalue hstands hexit ⊢
    exact v.flowsValue hroom hvalue (hscope.within_declared v.name) hstands hexit

theorem Initializer.flows (hroom : chunk.constants.length ≤ Chunk.maxConstants) (i : Initializer)
    (hallowed : i.Allowed scope) (hscope : scope.Roomy) (hdepth : scope.depth ≠ 0)
    (hstands : (i.code scope count).Stands chunk depth place count)
    (hexit : depth (place + i.length) = some (scope.after i.name?).height) :
    depth place = some scope.height ∧ (i.code scope count).Flows chunk depth place := by
  cases i with
  | empty => exact ⟨hexit, trivial⟩
  | var v =>
    refine v.flows hroom hallowed hscope hstands ?_
    rw [beq_false_of_ne hdepth]
    exact hexit
  | expression value line =>
    simp only [Initializer.code, Fragment.stands_append, Fragment.stands_single, Expr.size_code] at hstands
    obtain ⟨hfirst, hpop⟩ := hstands
    obtain ⟨hentry, hflows⟩ := value.flows hroom hallowed hscope.within hfirst hpop
    refine ⟨hentry, ?_⟩
    simp only [Initializer.code, Fragment.flows_append, Expr.size_code]
    exact ⟨hflows, flows_pop hexit⟩

theorem Stmt.flowsCondition (hroom : chunk.constants.length ≤ Chunk.maxConstants) {condition : Option Expr}
    {line : UInt32}
    {rest : Nat} (hallowed : ∀ e ∈ condition, e.Allowed locals) (hwithin : Local.Within locals height)
    (hjump : condition.isSome → 1 + rest ≤ Compiler.maxJump)
    (hstands : (Stmt.conditionCode locals count height line rest condition).Stands chunk depth place count)
    (hexit : depth (place + Stmt.conditionLength condition) = some height)
    (hout : condition.isSome → depth (place + Stmt.conditionLength condition + rest) = some (height + 1)) :
    depth place = some height ∧ (Stmt.conditionCode locals count height line rest condition).Flows chunk depth
      place := by
  cases condition with
  | none => exact ⟨hexit, trivial⟩
  | some e =>
    simp only [Stmt.conditionCode, Fragment.stands_append, Fragment.stands_single, Fragment.size_append,
      Fragment.size_single, Expr.size_code, Instruction.size_jumpIfFalse] at hstands
    obtain ⟨⟨hfirst, htest⟩, hpop⟩ := hstands
    obtain ⟨hentry, hflows⟩ := e.flows hroom (hallowed e rfl) hwithin hfirst htest
    refine ⟨hentry, ?_⟩
    simp only [Stmt.conditionCode, Fragment.flows_append, Fragment.size_append, Fragment.size_single,
      Expr.size_code, Instruction.size_jumpIfFalse]
    have hout' := hout rfl
    simp only [Stmt.conditionLength, Option.elim_some] at hexit hout'
    exact ⟨⟨hflows, flows_jumpIfFalse (hjump rfl) (depth_congr hpop (by omega) rfl)
        (depth_congr hout' (by omega) rfl)⟩,
      flows_pop (depth_congr hexit (by omega) rfl)⟩

theorem Stmt.entryIncrement {increment : Option (Expr × UInt32)} {line : UInt32} {conditionLength : Nat}
    (hstands : (Stmt.incrementCode locals count height line conditionLength increment).Stands chunk depth
      place count)
    (hexit : depth (place + Stmt.incrementLength increment) = some height) : depth place = some height := by
  cases increment with
  | none => exact hexit
  | some clause =>
    simp only [Stmt.incrementCode, Fragment.stands_append, Fragment.stands_single] at hstands
    exact hstands.1.1.1

/-- The third clause leads to the condition, and the end of the body to the third clause if there is one, and
    else to the condition. -/
theorem Stmt.flowsIncrement (hroom : chunk.constants.length ≤ Chunk.maxConstants) {condition : Option Expr}
    {increment : Option (Expr × UInt32)} {line bodyLine : UInt32} {bodyLength : Nat}
    (hallowed : ∀ e ∈ increment, e.1.Allowed locals) (hwithin : Local.Within locals height)
    (hback : ∀ e ∈ increment, Stmt.conditionLength condition + e.1.length + 7 ≤ Compiler.maxJump)
    (hround : Stmt.roundLength condition increment bodyLength ≤ Compiler.maxJump)
    (hstands : (Stmt.incrementCode locals count height line (Stmt.conditionLength condition) increment).Stands
      chunk depth (place + Stmt.conditionLength condition) count)
    (hentry : depth place = some height)
    (hexit : depth (place + Stmt.conditionLength condition + Stmt.incrementLength increment) = some height) :
    (Stmt.incrementCode locals count height line (Stmt.conditionLength condition) increment).Flows chunk depth
      (place + Stmt.conditionLength condition) ∧
    (Fragment.single bodyLine height
      (.loop (operandWord (Stmt.roundLength condition increment bodyLength)))).Flows chunk
      depth (place + Stmt.conditionLength condition + Stmt.incrementLength increment + bodyLength) := by
  cases increment with
  | none =>
    refine ⟨trivial, flows_loop hround ?_ (depth_congr hentry ?_ rfl)⟩ <;>
      simp only [Stmt.roundLength, Stmt.incrementLength, Option.elim_none] <;> omega
  | some clause =>
    obtain ⟨e, close⟩ := clause
    have hfits := hback (e, close) rfl
    dsimp only at hfits
    simp only [Stmt.incrementCode, Fragment.stands_append, Fragment.stands_single, Fragment.size_append,
      Fragment.size_single, Expr.size_code, Instruction.size_jump, Instruction.size_pop,
      Fragment.constants_single, List.length_nil, Nat.add_zero] at hstands
    obtain ⟨⟨⟨-, hfirst⟩, hpop⟩, hloop⟩ := hstands
    obtain ⟨hagain, hflows⟩ := e.flows hroom (hallowed _ rfl) hwithin hfirst (depth_congr hpop (by omega) rfl)
    simp only [Stmt.incrementLength, Option.elim_some] at hexit
    simp only [Stmt.incrementCode, Fragment.flows_append, Fragment.size_append, Fragment.size_single,
      Expr.size_code, Instruction.size_jump, Instruction.size_pop]
    refine ⟨⟨⟨⟨flows_jump (by omega) (depth_congr hexit (by omega) rfl), hflows⟩, flows_pop ?_⟩,
      flows_loop hfits (by omega) ?_⟩, flows_loop hround ?_ (depth_congr hagain ?_ rfl)⟩
    · exact depth_congr hloop (by omega) rfl
    · exact depth_congr hentry (by omega) rfl
    all_goals
      simp only [Stmt.roundLength, Stmt.incrementLength, Option.elim_some]
      omega

/-- The way out of a loop with a condition drops the falsy value. -/
theorem Stmt.flowsExit {condition : Option Expr} {line : UInt32}
    (hstands : (Stmt.exitCode line height condition).Stands chunk depth place count)
    (hexit : depth (place + if condition.isSome then 1 else 0) = some height) :
    (condition.isSome → depth place = some (height + 1)) ∧
      (Stmt.exitCode line height condition).Flows chunk depth place := by
  cases condition with
  | none => exact ⟨fun h => absurd h Bool.false_ne_true, trivial⟩
  | some e => exact ⟨fun _ => Fragment.stands_single.mp hstands, flows_pop hexit⟩

/-! ### Statements and declarations -/

mutual

theorem Stmt.flows (hroom : chunk.constants.length ≤ Chunk.maxConstants) {isScript : Bool} :
    ∀ (s : Stmt) {scope : Scope}
    {place count : Nat}, s.Allowed isScript scope → scope.Roomy →
    (s.code scope count).Stands chunk depth place count → depth (place + s.length) = some scope.height →
    depth place = some scope.height ∧ (s.code scope count).Flows chunk depth place
  | .print value line, scope, place, count, hallowed, hscope, hstands, hexit
  | .expression value line, scope, place, count, hallowed, hscope, hstands, hexit => by
    simp only [Stmt.code, Fragment.stands_append, Fragment.stands_single, Expr.size_code] at hstands
    obtain ⟨hfirst, hlast⟩ := hstands
    obtain ⟨hentry, hflows⟩ := value.flows hroom hallowed hscope.within hfirst hlast
    refine ⟨hentry, ?_⟩
    simp only [Stmt.code, Fragment.flows_append, Expr.size_code]
    exact ⟨hflows, Fragment.flows_straight (Nat.le_add_left 1 _) trivial rfl hexit⟩
  | .ret none line, scope, place, count, _, _, hstands, _ => by
    simp only [Stmt.code, Fragment.stands_append, Fragment.stands_single] at hstands
    obtain ⟨hnil, hret⟩ := hstands
    refine ⟨hnil, Fragment.flows_append.mpr ⟨Fragment.flows_straight (Nat.zero_le _) trivial rfl hret, ?_⟩⟩
    exact Fragment.flows_single.mpr ⟨Nat.le_add_left 1 _, trivial, fun p hp => absurd hp List.not_mem_nil⟩
  | .ret (some value) line, scope, place, count, hallowed, hscope, hstands, _ => by
    simp only [Stmt.code, Fragment.stands_append, Fragment.stands_single, Expr.size_code] at hstands
    obtain ⟨hfirst, hret⟩ := hstands
    obtain ⟨hentry, hflows⟩ := value.flows hroom hallowed.2 hscope.within hfirst hret
    refine ⟨hentry, Fragment.flows_append.mpr ⟨hflows, ?_⟩⟩
    exact Fragment.flows_single.mpr ⟨Nat.le_add_left 1 _, trivial, fun p hp => absurd hp List.not_mem_nil⟩
  | .ifElse condition line thenPart none, scope, place, count, hallowed, hscope, hstands, hexit => by
    obtain ⟨hcondition, hthen, hjump⟩ := hallowed
    simp only [Stmt.code, Fragment.stands_append, Fragment.stands_single, Fragment.size_append,
      Fragment.size_single,
      Expr.size_code, Stmt.size_code, Fragment.constants_append, Fragment.constants_single, List.append_nil,
      Instruction.size_jumpIfFalse, Instruction.size_jump, Instruction.size_pop] at hstands
    obtain ⟨⟨⟨⟨⟨hfirst, htest⟩, hpop⟩, hsecond⟩, hover⟩, hlast⟩ := hstands
    simp only [Stmt.length] at hexit
    obtain ⟨hmiddle, hflows₂⟩ := thenPart.flows hroom hthen hscope hsecond (depth_congr hover (by omega) rfl)
    obtain ⟨hentry, hflows₁⟩ := condition.flows hroom hcondition hscope.within hfirst htest
    refine ⟨hentry, ?_⟩
    simp only [Stmt.code, Fragment.flows_append, Fragment.size_append, Fragment.size_single, Expr.size_code,
      Stmt.size_code, Instruction.size_jumpIfFalse, Instruction.size_jump, Instruction.size_pop]
    refine ⟨⟨⟨⟨⟨hflows₁, flows_jumpIfFalse hjump ?_ ?_⟩, flows_pop ?_⟩, hflows₂⟩, flows_jump (by decide) ?_⟩,
      flows_pop ?_⟩
    · exact depth_congr hpop (by omega) rfl
    · exact depth_congr hlast (by omega) rfl
    · exact depth_congr hmiddle (by omega) rfl
    · exact depth_congr hexit (by omega) rfl
    · exact depth_congr hexit (by omega) rfl
  | .ifElse condition line thenPart (some elsePart), scope, place, count, hallowed, hscope, hstands, hexit => by
    obtain ⟨hcondition, hthen, helse, hjump, hjump'⟩ := hallowed
    simp only [Stmt.code, Fragment.stands_append, Fragment.stands_single, Fragment.size_append,
      Fragment.size_single,
      Expr.size_code, Stmt.size_code, Fragment.constants_append, Fragment.constants_single, List.append_nil,
      List.length_append, ← Nat.add_assoc, Instruction.size_jumpIfFalse, Instruction.size_jump,
      Instruction.size_pop] at hstands
    obtain ⟨⟨⟨⟨⟨⟨hfirst, htest⟩, hpop⟩, hsecond⟩, hover⟩, hpop'⟩, hthird⟩ := hstands
    simp only [Stmt.length, ← Nat.add_assoc] at hexit
    obtain ⟨hlast, hflows₃⟩ := elsePart.flows hroom helse hscope hthird (depth_congr hexit (by omega) rfl)
    obtain ⟨hmiddle, hflows₂⟩ := thenPart.flows hroom hthen hscope hsecond (depth_congr hover (by omega) rfl)
    obtain ⟨hentry, hflows₁⟩ := condition.flows hroom hcondition hscope.within hfirst htest
    refine ⟨hentry, ?_⟩
    simp only [Stmt.code, Fragment.flows_append, Fragment.size_append, Fragment.size_single, Expr.size_code,
      Stmt.size_code, ← Nat.add_assoc, Instruction.size_jumpIfFalse, Instruction.size_jump,
      Instruction.size_pop]
    refine ⟨⟨⟨⟨⟨⟨hflows₁, flows_jumpIfFalse hjump ?_ ?_⟩, flows_pop ?_⟩, hflows₂⟩, flows_jump hjump' ?_⟩,
      flows_pop hlast⟩, hflows₃⟩
    · exact depth_congr hpop (by omega) rfl
    · exact depth_congr hpop' (by omega) rfl
    · exact depth_congr hmiddle (by omega) rfl
    · exact depth_congr hexit (by omega) rfl
  | .whileLoop condition line body, scope, place, count, hallowed, hscope, hstands, hexit => by
    obtain ⟨hcondition, hbody, hjump⟩ := hallowed
    simp only [Stmt.code, Fragment.stands_append, Fragment.stands_single, Fragment.size_append,
      Fragment.size_single,
      Expr.size_code, Stmt.size_code, Fragment.constants_append, Fragment.constants_single, List.append_nil,
      Instruction.size_jumpIfFalse, Instruction.size_loop, Instruction.size_pop] at hstands
    obtain ⟨⟨⟨⟨⟨hfirst, htest⟩, hpop⟩, hsecond⟩, hloop⟩, hlast⟩ := hstands
    simp only [Stmt.length] at hexit
    obtain ⟨hmiddle, hflows₂⟩ := body.flows hroom hbody hscope hsecond (depth_congr hloop (by omega) rfl)
    obtain ⟨hentry, hflows₁⟩ := condition.flows hroom hcondition hscope.within hfirst htest
    refine ⟨hentry, ?_⟩
    simp only [Stmt.code, Fragment.flows_append, Fragment.size_append, Fragment.size_single, Expr.size_code,
      Stmt.size_code, Instruction.size_jumpIfFalse, Instruction.size_loop, Instruction.size_pop]
    refine ⟨⟨⟨⟨⟨hflows₁, flows_jumpIfFalse (by omega) ?_ ?_⟩, flows_pop ?_⟩, hflows₂⟩,
      flows_loop hjump (by omega) ?_⟩, flows_pop ?_⟩
    · exact depth_congr hpop (by omega) rfl
    · exact depth_congr hlast (by omega) rfl
    · exact depth_congr hmiddle (by omega) rfl
    · exact depth_congr hentry (by omega) rfl
    · exact depth_congr hexit (by omega) rfl
  | .forLoop initializer condition line increment body, scope, place, count, hallowed, hscope, hstands,
      hexit => by
    obtain ⟨hfirst, hcondition, hincrement, hbody, hexits, hback, hround⟩ := hallowed
    have hinner' : scope.inner.Roomy := hscope
    have hinside := hinner'.after hfirst.admits
    have hinner : scope.inner.depth ≠ 0 := Nat.succ_ne_zero _
    simp only [Stmt.code, Fragment.stands_append, Fragment.stands_single, Fragment.size_append,
      Fragment.size_single,
      Stmt.size_code, Stmt.size_conditionCode, Stmt.size_incrementCode, Initializer.size_code _ _ _ hinner,
      Fragment.constants_append, List.length_append, ← Nat.add_assoc, Instruction.size_loop] at hstands
    obtain ⟨⟨⟨⟨⟨⟨hstands₁, hstands₂⟩, hstands₃⟩, hstands₄⟩, hloop⟩, hout⟩, hpops⟩ := hstands
    simp only [Stmt.size_exitCode] at hpops
    simp only [Stmt.length, ← Nat.add_assoc] at hexit
    rw [Scope.height_after_sub] at hpops
    obtain ⟨hheight, hflows₆⟩ := Fragment.flows_pops hpops hexit
    have hinsideHeight : scope.height + (if initializer.name?.isSome then 1 else 0) =
        (scope.inner.after initializer.name?).height := by
      have hsub := Scope.height_after_sub scope initializer.name?
      have hle := scope.height_le_after_inner initializer.name?
      omega
    rw [hinsideHeight] at hheight
    obtain ⟨hout', hflows₅⟩ := Stmt.flowsExit hout hheight
    obtain ⟨hentry₄, hflows₄⟩ := body.flows hroom hbody hinside hstands₄ hloop
    have hentry₃ := Stmt.entryIncrement hstands₃ hentry₄
    obtain ⟨hentry₂, hflows₂⟩ := Stmt.flowsCondition hroom hcondition hinside.within hexits hstands₂ hentry₃
      fun hsome => depth_congr (hout' hsome) (by omega) rfl
    obtain ⟨hflows₃, hflowsLoop⟩ :=
      Stmt.flowsIncrement hroom hincrement hinside.within hback hround hstands₃ hentry₂ hentry₄
    obtain ⟨hentry, hflows₁⟩ := initializer.flows hroom hfirst hinner' hinner hstands₁ hentry₂
    refine ⟨hentry, ?_⟩
    simp only [Stmt.code, Fragment.flows_append, Fragment.size_append, Fragment.size_single, Stmt.size_code,
      Stmt.size_conditionCode, Stmt.size_incrementCode, Initializer.size_code _ _ _ hinner, Stmt.size_exitCode,
      ← Nat.add_assoc, Instruction.size_loop, Scope.height_after_sub]
    exact ⟨⟨⟨⟨⟨⟨hflows₁, hflows₂⟩, hflows₃⟩, hflows₄⟩, hflowsLoop⟩, hflows₅⟩, hflows₆⟩
  | .block declarations line, scope, place, count, hallowed, hscope, hstands, hexit => by
    simp only [Stmt.code, Fragment.stands_append, Decl.size_codes] at hstands
    obtain ⟨hfirst, hpops⟩ := hstands
    have hglobal : (scope.inner.depth == 0) = false := rfl
    simp only [Stmt.length, ← Nat.add_assoc] at hexit
    rw [hglobal] at hpops
    obtain ⟨hmiddle, hflows₂⟩ := Fragment.flows_pops hpops hexit
    obtain ⟨hentry, hflows₁⟩ := Decl.flowsAll hroom declarations hallowed hscope hfirst (by
      rw [Scope.height_afterAll_inner]
      exact hmiddle)
    refine ⟨hentry, ?_⟩
    simp only [Stmt.code, Fragment.flows_append, Decl.size_codes]
    exact ⟨hflows₁, hflows₂⟩

theorem Decl.flows (hroom : chunk.constants.length ≤ Chunk.maxConstants) {isScript : Bool} :
    ∀ (d : Decl) {scope : Scope}
    {place count : Nat}, d.Allowed isScript scope → scope.Roomy →
    (d.code scope count).Stands chunk depth place count →
    depth (place + d.length (scope.depth == 0)) = some (scope.after d.name?).height →
    depth place = some scope.height ∧ (d.code scope count).Flows chunk depth place
  | .var v, scope, place, count, hallowed, hscope, hstands, hexit => v.flows hroom hallowed hscope hstands hexit
  | .function name routine, scope, place, count, _, _, hstands, hexit => by
    change depth (place + _) = some (scope.declare name).height at hexit
    rw [Decl.code] at hstands ⊢
    rw [Decl.length, Scope.height_declare] at hexit
    by_cases hdepth : scope.depth = 0
    · rw [if_pos hdepth] at hstands hexit ⊢
      simp only [Fragment.stands_append, Fragment.stands_pool, Fragment.stands_single, Fragment.size_append,
        Fragment.size_pool, Fragment.size_single, Fragment.constants_append, Fragment.constants_pool,
        List.length_append, List.length_singleton, Nat.add_zero] at hstands
      obtain ⟨⟨⟨hname, hfunction⟩, hhere⟩, hdefine⟩ := hstands
      have hfunction' := Chunk.constant?_operandByte hroom hfunction
      have hname' := Chunk.constant?_operandByte hroom hname
      refine ⟨hhere, ?_⟩
      simp only [Fragment.flows_append, Fragment.size_append, Fragment.size_pool, Fragment.size_single,
        Nat.add_zero]
      rw [hdepth] at hexit
      exact ⟨⟨⟨trivial, trivial⟩, Fragment.flows_straight (Nat.zero_le _) ⟨_, hfunction'⟩ rfl hdefine⟩,
        Fragment.flows_straight (Nat.le_add_left 1 _) ⟨name, hname'⟩ rfl hexit⟩
    · rw [if_neg hdepth] at hstands hexit ⊢
      simp only [Fragment.stands_append, Fragment.stands_pool, Fragment.stands_single, Fragment.size_pool,
        Nat.add_zero] at hstands
      obtain ⟨hfunction, hhere⟩ := hstands
      have hfunction' := Chunk.constant?_operandByte hroom hfunction
      rw [beq_false_of_ne hdepth] at hexit
      exact ⟨hhere, Fragment.flows_append.mpr ⟨trivial,
        Fragment.flows_straight (Nat.zero_le _) ⟨_, hfunction'⟩ rfl hexit⟩⟩
  | .statement s, scope, place, count, hallowed, hscope, hstands, hexit =>
    s.flows hroom hallowed hscope hstands hexit

theorem Decl.flowsAll (hroom : chunk.constants.length ≤ Chunk.maxConstants) {isScript : Bool} :
    ∀ (ds : List Decl) {scope : Scope} {place count : Nat}, Decl.AllAllowed isScript scope ds → scope.Roomy →
    (Decl.codes scope count ds).Stands chunk depth place count →
    depth (place + Decl.lengths (scope.depth == 0) ds) = some (scope.afterAll ds).height →
    depth place = some scope.height ∧ (Decl.codes scope count ds).Flows chunk depth place
  | [], scope, place, count, _, _, _, hexit => ⟨hexit, trivial⟩
  | d :: ds, scope, place, count, hallowed, hscope, hstands, hexit => by
    obtain ⟨hd, hds⟩ := hallowed
    simp only [Decl.codes, Fragment.stands_append, Decl.size_code] at hstands
    obtain ⟨hfirst, hrest⟩ := hstands
    rw [Decl.lengths, ← Nat.add_assoc] at hexit
    obtain ⟨hmiddle, hflows₂⟩ := Decl.flowsAll hroom ds hds (hscope.after hd.admits) hrest (by
      rw [Scope.depth_after]
      exact hexit)
    obtain ⟨hentry, hflows₁⟩ := d.flows hroom hd hscope hfirst hmiddle
    refine ⟨hentry, ?_⟩
    simp only [Decl.codes, Fragment.flows_append, Decl.size_code]
    exact ⟨hflows₁, hflows₂⟩

end

end

end Lox
