import Lox.Proofs.Flow.Statement
import Lox.Proofs.Likeness

/-! # Trees of the same text

The same text can stand at different places of programs. Its trees there are twins: they differ in lines, and
their code differs in the operands that refer to constants, which are shifted by the number of constants
before. The code of a twin is also known to keep clear of what lies below it on the stack. -/

namespace Lox

/-! ### Shifted code -/

/-- An instruction that refers to constants `k` places later. -/
def Instruction.shifted (k : Nat) : Instruction → Instruction
  | constant index => constant (index + operandByte k)
  | getGlobal index => getGlobal (index + operandByte k)
  | defineGlobal index => defineGlobal (index + operandByte k)
  | setGlobal index => setGlobal (index + operandByte k)
  | i => i

/-- Code without its lines that refers to constants `k` places later. -/
def Fragment.shifted (k : Nat) (a : Fragment) : Fragment where
  items := a.items.map fun item => ⟨0, item.height, item.instruction.shifted k⟩
  constants := a.constants.map Constant.unlined

namespace Fragment

variable {a b : Fragment} {k : Nat} {line : UInt32} {height : Nat} {i : Instruction}

@[simp] theorem shifted_append (a b : Fragment) (k : Nat) : (a ++ b).shifted k = a.shifted k ++ b.shifted k :=
  ext (List.map_append ..) (List.map_append ..)

@[simp] theorem shifted_single : (single line height i).shifted k = single 0 height (i.shifted k) := rfl

@[simp] theorem shifted_pool {constant : Constant} : (pool constant).shifted k = pool constant.unlined := rfl

@[simp] theorem shifted_empty : shifted k {} = {} := rfl

@[simp] theorem shifted_pops (count : Nat) : (pops line height count).shifted k = pops 0 height count := by
  induction count with
  | zero => rfl
  | succ count ih =>
    rw [pops, shifted_append, ih]
    rfl

theorem length_of_shifted {j : Nat} (h : a.shifted j = b.shifted k) :
    a.constants.length = b.constants.length := by
  have hlength := congrArg (fun x => x.constants.length) h
  simpa [shifted] using hlength

end Fragment

/-! ### Code that keeps clear -/

/-- An instruction that neither returns nor looks at the slot of the function itself. -/
def Instruction.Tame (i : Instruction) : Prop := i ≠ .ret ∧ i ≠ .getLocal 0 ∧ i ≠ .setLocal 0

/-- Code of tame instructions, which take only values above a height. -/
def Fragment.Clear (low : Nat) (a : Fragment) : Prop :=
  ∀ item ∈ a.items, item.instruction.Tame ∧ low + item.instruction.takes ≤ item.height

namespace Fragment

variable {a b : Fragment} {low : Nat} {line : UInt32} {height : Nat} {i : Instruction}

@[simp] theorem clear_append : (a ++ b).Clear low ↔ a.Clear low ∧ b.Clear low := List.forall_mem_append

@[simp] theorem clear_single : (single line height i).Clear low ↔ i.Tame ∧ low + i.takes ≤ height :=
  List.forall_mem_singleton

@[simp] theorem clear_pool {constant : Constant} : (pool constant).Clear low :=
  fun _ h => absurd h List.not_mem_nil

@[simp] theorem clear_empty : Clear low {} := fun _ h => absurd h List.not_mem_nil

theorem Clear.mono {high : Nat} (h : a.Clear high) (hle : low ≤ high) : a.Clear low := by
  intro item hitem
  obtain ⟨htame, htakes⟩ := h item hitem
  exact ⟨htame, by omega⟩

theorem clear_pops (count : Nat) : (pops line low count).Clear low := by
  induction count with
  | zero => exact clear_empty
  | succ count ih =>
    have hpop : low + 1 ≤ low + count + 1 := Nat.succ_le_succ (Nat.le_add_right low count)
    exact clear_append.mpr ⟨clear_single.mpr ⟨⟨nofun, nofun, nofun⟩, hpop⟩, ih⟩

end Fragment

/-- Only the nameless local at the bottom has the slot of the function itself. -/
def Local.Raised (locals : List Local) : Prop :=
  ∀ name slot loc, Local.resolve? name locals = some (slot, loc) → loc.depth ≠ none → name ≠ "" →
    operandByte slot ≠ 0

/-- The slot of the function itself is at the bottom of a scope, without a name. -/
def Scope.Bottomed (scope : Scope) : Prop := ∃ inner, scope.locals = inner ++ [⟨"", some 0⟩]

namespace Scope

variable {scope : Scope}

theorem Bottomed.after (h : scope.Bottomed) (name : Option String) : (scope.after name).Bottomed := by
  obtain ⟨inner, heq⟩ := h
  cases name with
  | none => exact ⟨inner, heq⟩
  | some name =>
    unfold Scope.after Scope.declare
    dsimp only
    split
    · exact ⟨inner, heq⟩
    · exact ⟨⟨name, some scope.depth⟩ :: inner, by rw [heq, List.cons_append]⟩

theorem resolve?_pos {name : String} {inner : List Local} {slot : Nat} {loc : Local}
    (h : Local.resolve? name (inner ++ [⟨"", some 0⟩]) = some (slot, loc)) (hname : name ≠ "") : 0 < slot := by
  induction inner with
  | nil =>
    rw [List.nil_append, Local.resolve?] at h
    split at h
    · rename_i heq
      exact absurd heq.symm hname
    · cases h
  | cons first inner ih =>
    rw [List.cons_append, Local.resolve?] at h
    split at h
    · cases h
      simp
    · exact ih h

theorem Bottomed.raised (h : scope.Bottomed) (hroomy : scope.Roomy) : Local.Raised scope.locals := by
  intro name slot loc hfound hdepth hname hzero
  have hsmall := (hroomy.within name slot loc hfound hdepth).2
  obtain ⟨inner, heq⟩ := h
  rw [heq] at hfound
  have hpos := resolve?_pos hfound hname
  have htoNat := congrArg UInt8.toNat hzero
  rw [toNat_operandByte hsmall] at htoNat
  exact Nat.ne_of_gt hpos htoNat

/-- A new local cannot be mentioned in its own initial value. -/
theorem Bottomed.raised_declared (h : scope.Bottomed) (hroomy : scope.Roomy) (name : String) :
    Local.Raised (⟨name, none⟩ :: scope.locals) := by
  intro other slot loc hfound hdepth hname
  rw [Local.resolve?] at hfound
  split at hfound
  · cases hfound
    exact absurd rfl hdepth
  · exact h.raised hroomy other slot loc hfound hdepth hname

end Scope

/-! ### Expressions -/

/-- Expressions that are read from the same text. -/
structure Expr.Twin (e e' : Expr) : Prop where
  length : e'.length = e.length
  code : ∀ (k : Nat) (locals : List Local) (count height : Nat),
    (e'.code locals (count + k) height).shifted 0 = (e.code locals count height).shifted k
  clear : ∀ {locals : List Local} (count height : Nat), e.Allowed locals → Local.Raised locals →
    (e.code locals count height).Clear height

namespace Expr.Twin

variable {e e' left left' right right' : Expr} {line line' : UInt32}

theorem constants (h : e.Twin e') (k : Nat) (locals : List Local) (count height : Nat) :
    (e'.code locals (count + k) height).constants.length = (e.code locals count height).constants.length :=
  Fragment.length_of_shifted (h.code k locals count height)

theorem literal (value : Literal) : (Expr.literal value line).Twin (.literal value line') where
  length := by cases value <;> rfl
  code k locals count height := by
    cases value with
    | nil => rfl
    | bool b => cases b <;> rfl
    | number | string => simp [Expr.code, Literal.code, Instruction.shifted, Constant.unlined]
  clear count height _ _ := by
    cases value with
    | nil => simp [Expr.code, Literal.code, Instruction.Tame, Instruction.takes]
    | bool b => cases b <;> simp [Expr.code, Literal.code, Instruction.Tame, Instruction.takes]
    | number | string => simp [Expr.code, Literal.code, Instruction.Tame, Instruction.takes]

theorem mention {name : String} (hname : name ≠ "") : (Expr.mention name line).Twin (.mention name line') where
  length := rfl
  code k locals count height := by
    rw [Expr.code, Expr.code]
    split <;> simp [Instruction.shifted, Constant.unlined]
  clear {locals} count height hallowed hraised := by
    rw [Expr.code]
    split
    · rename_i slot loc hfound
      have hslot := hraised name slot loc hfound (hallowed slot loc hfound) hname
      simp [Instruction.Tame, Instruction.takes, hslot]
    · simp [Instruction.Tame, Instruction.takes]

theorem assign {name : String} (hname : name ≠ "") (h : e.Twin e') :
    (Expr.assign name e).Twin (.assign name e') where
  length := by rw [Expr.length, Expr.length, h.length]
  code k locals count height := by
    rw [Expr.code, Expr.code]
    split
    · simp [h.code, Instruction.shifted]
    · rw [Nat.add_right_comm]
      simp [h.code, Instruction.shifted, Constant.unlined]
  clear {locals} count height hallowed hraised := by
    rw [Expr.code]
    split
    · rename_i slot loc hfound
      have hslot := hraised name slot loc hfound (hallowed.1 slot loc hfound) hname
      simp [h.clear _ _ hallowed.2 hraised, Instruction.Tame, Instruction.takes, hslot]
    · simp [h.clear _ _ hallowed.2 hraised, Instruction.Tame, Instruction.takes]

theorem group (h : e.Twin e') : (Expr.group e line).Twin (.group e' line') where
  length := h.length
  code := h.code
  clear := h.clear

theorem unary (op : UnaryOp) (h : e.Twin e') : (Expr.unary op e).Twin (.unary op e') where
  length := by rw [Expr.length, Expr.length, h.length]
  code k locals count height := by
    rw [Expr.code, Expr.code]
    cases op <;> simp [h.code, UnaryOp.instruction, Instruction.shifted]
  clear count height hallowed hraised := by
    rw [Expr.code]
    cases op <;> simp [h.clear _ _ hallowed hraised, UnaryOp.instruction, Instruction.Tame, Instruction.takes]

theorem binary (op : BinaryOp) (hleft : left.Twin left') (hright : right.Twin right') :
    (Expr.binary op left right).Twin (.binary op left' right') where
  length := by rw [Expr.length, Expr.length, hleft.length, hright.length]
  code k locals count height := by
    have hop : (op.code right'.endLine height).shifted 0 = (op.code right.endLine height).shifted k := by
      cases op <;> rfl
    simp only [Expr.code, Fragment.shifted_append]
    rw [hleft.constants, Nat.add_right_comm, hleft.code, hright.code, hop]
  clear count height hallowed hraised := by
    have hop : (op.code right.endLine height).Clear height := by
      cases op <;> simp [BinaryOp.code, BinaryOp.instruction, BinaryOp.negated, Instruction.Tame,
        Instruction.takes]
    simp only [Expr.code, Fragment.clear_append]
    exact ⟨⟨hleft.clear _ _ hallowed.1 hraised, (hright.clear _ _ hallowed.2 hraised).mono (Nat.le_succ _)⟩,
      hop⟩

theorem and (hleft : left.Twin left') (hright : right.Twin right') :
    (Expr.and left line right).Twin (.and left' line' right') where
  length := by rw [Expr.length, Expr.length, hleft.length, hright.length]
  code k locals count height := by
    simp only [Expr.code, Fragment.shifted_append]
    rw [hleft.constants, Nat.add_right_comm, hleft.code, hright.code, hright.length]
    rfl
  clear count height hallowed hraised := by
    simp only [Expr.code, Fragment.clear_append]
    exact ⟨⟨⟨hleft.clear _ _ hallowed.1 hraised, by simp [Instruction.Tame, Instruction.takes]⟩,
      by simp [Instruction.Tame, Instruction.takes]⟩, hright.clear _ _ hallowed.2.1 hraised⟩

theorem or (hleft : left.Twin left') (hright : right.Twin right') :
    (Expr.or left line right).Twin (.or left' line' right') where
  length := by rw [Expr.length, Expr.length, hleft.length, hright.length]
  code k locals count height := by
    simp only [Expr.code, Fragment.shifted_append]
    rw [hleft.constants, Nat.add_right_comm, hleft.code, hright.code, hright.length]
    rfl
  clear count height hallowed hraised := by
    simp only [Expr.code, Fragment.clear_append]
    exact ⟨⟨⟨⟨hleft.clear _ _ hallowed.1 hraised, by simp [Instruction.Tame, Instruction.takes]⟩,
      by simp [Instruction.Tame, Instruction.takes]⟩, by simp [Instruction.Tame, Instruction.takes]⟩,
      hright.clear _ _ hallowed.2.1 hraised⟩

end Expr.Twin

/-- Arguments that are read from the same text. -/
structure Expr.Twins (es es' : List Expr) : Prop where
  number : es'.length = es.length
  length : Expr.lengths es' = Expr.lengths es
  code : ∀ (k : Nat) (locals : List Local) (count height : Nat),
    (Expr.codes locals (count + k) height es').shifted 0 = (Expr.codes locals count height es).shifted k
  clear : ∀ {locals : List Local} (count height : Nat), Expr.AllAllowed locals es → Local.Raised locals →
    (Expr.codes locals count height es).Clear height

namespace Expr

variable {e e' callee callee' : Expr} {es es' : List Expr} {line line' : UInt32}

theorem Twins.nil : Twins [] [] where
  number := rfl
  length := rfl
  code _ _ _ _ := rfl
  clear _ _ _ _ := Fragment.clear_empty

theorem Twins.cons (h : e.Twin e') (hs : Twins es es') : Twins (e :: es) (e' :: es') where
  number := congrArg (· + 1) hs.number
  length := by rw [lengths, lengths, h.length, hs.length]
  code k locals count height := by
    simp only [codes, Fragment.shifted_append]
    rw [h.constants, Nat.add_right_comm, h.code, hs.code]
  clear count height hallowed hraised := by
    simp only [codes, Fragment.clear_append]
    exact ⟨h.clear _ _ hallowed.1 hraised, (hs.clear _ _ hallowed.2 hraised).mono (Nat.le_succ _)⟩

theorem Twin.call (h : callee.Twin callee') (hs : Twins es es') :
    (Expr.call callee es line).Twin (.call callee' es' line') where
  length := by rw [Expr.length, Expr.length, h.length, hs.length]
  code k locals count height := by
    simp only [Expr.code, Fragment.shifted_append]
    rw [h.constants, Nat.add_right_comm, h.code, hs.code, hs.number]
    rfl
  clear count height hallowed hraised := by
    obtain ⟨hcallee, hall, hnumber⟩ := hallowed
    simp only [Expr.code, Fragment.clear_append, Fragment.clear_single]
    refine ⟨⟨h.clear _ _ hcallee hraised, (hs.clear _ _ hall hraised).mono (Nat.le_succ _)⟩,
      ⟨nofun, nofun, nofun⟩, ?_⟩
    rw [Instruction.takes, toNat_operandByte (by omega)]
    omega

end Expr

/-! ### Clauses -/

/-- Declarations of variables that are read from the same text. -/
structure Variable.Twin (v v' : Variable) : Prop where
  name : v'.name = v.name
  length : ∀ isGlobal, v'.length isGlobal = v.length isGlobal
  code : ∀ (k : Nat) (scope : Scope) (count : Nat), (v'.code scope (count + k)).shifted 0 =
    (v.code scope count).shifted k
  clear : ∀ {scope : Scope} (count : Nat), v.Allowed scope → scope.Roomy → scope.Bottomed →
    (v.code scope count).Clear scope.height

/-- The initial values of variables are twins, or missing. -/
inductive Expr.TwinOption : Option Expr → Option Expr → Prop
  | none : TwinOption none none
  | some {e e' : Expr} (h : e.Twin e') : TwinOption (some e) (some e')

theorem Variable.twin {name : String} {nameLine nameLine' line line' : UInt32} {value value' : Option Expr}
    (h : Expr.TwinOption value value') : (Variable.mk name nameLine value line).Twin ⟨name, nameLine', value',
      line'⟩ := by
  have hcode (k : Nat) (locals : List Local) (count height : Nat) :
      (valueCode locals (count + k) height ⟨name, nameLine', value', line'⟩).shifted 0 =
        (valueCode locals count height ⟨name, nameLine, value, line⟩).shifted k := by
    cases h with
    | none => rfl
    | some h => exact h.code k locals count height
  have hlength : valueLength ⟨name, nameLine', value', line'⟩ = valueLength ⟨name, nameLine, value, line⟩ := by
    cases h with
    | none => rfl
    | some h => exact h.length
  have hclear {locals : List Local} (count height : Nat) (hallowed : ∀ e ∈ value, e.Allowed locals)
      (hraised : Local.Raised locals) :
        (valueCode locals count height ⟨name, nameLine, value, line⟩).Clear height := by
    cases h with
    | none => exact Fragment.clear_single.mpr ⟨⟨nofun, nofun, nofun⟩, Nat.le_refl _⟩
    | some h => exact h.clear count height (hallowed _ rfl) hraised
  refine ⟨rfl, fun isGlobal => by rw [Variable.length, Variable.length, hlength], fun k scope count => ?_,
    fun {scope} count hallowed hroomy hbottomed => ?_⟩
  · unfold Variable.code
    split
    · simp only [Fragment.shifted_append]
      rw [Nat.add_right_comm, hcode]
      simp [Instruction.shifted, Constant.unlined]
    · exact hcode _ _ _ _
  · obtain ⟨-, hvalue⟩ := hallowed
    unfold Variable.code
    split
    · rename_i hdepth
      rw [if_pos hdepth] at hvalue
      simp [hclear _ _ hvalue (hbottomed.raised hroomy), Instruction.Tame, Instruction.takes]
    · rename_i hdepth
      rw [if_neg hdepth] at hvalue
      exact hclear _ _ hvalue (hbottomed.raised_declared hroomy name)

/-- First clauses that are read from the same text. -/
structure Initializer.Twin (i i' : Initializer) : Prop where
  name : i'.name? = i.name?
  length : i'.length = i.length
  code : ∀ (k : Nat) (scope : Scope) (count : Nat), (i'.code scope (count + k)).shifted 0 =
    (i.code scope count).shifted k
  clear : ∀ {scope : Scope} (count : Nat), i.Allowed scope → scope.Roomy → scope.Bottomed →
    (i.code scope count).Clear scope.height

namespace Initializer.Twin

theorem empty : Initializer.empty.Twin .empty where
  name := rfl
  length := rfl
  code _ _ _ := rfl
  clear _ _ _ _ := Fragment.clear_empty

theorem var {v v' : Variable} (h : v.Twin v') : (Initializer.var v).Twin (.var v') where
  name := congrArg some h.name
  length := h.length false
  code := h.code
  clear := h.clear

theorem expression {e e' : Expr} {line line' : UInt32} (h : e.Twin e') :
    (Initializer.expression e line).Twin (.expression e' line') where
  name := rfl
  length := congrArg (· + 1) h.length
  code k scope count := by
    simp only [Initializer.code, Fragment.shifted_append]
    rw [h.code]
    rfl
  clear count hallowed hroomy hbottomed := by
    simp [Initializer.code, h.clear _ _ hallowed (hbottomed.raised hroomy), Instruction.Tame, Instruction.takes]

end Initializer.Twin

/-- Third clauses that are read from the same text. -/
inductive Expr.TwinClause : Option (Expr × UInt32) → Option (Expr × UInt32) → Prop
  | none : TwinClause none none
  | some {e e' : Expr} {line line' : UInt32} (h : e.Twin e') : TwinClause (some (e, line)) (some (e', line'))

namespace Stmt

variable {condition condition' : Option Expr} {increment increment' : Option (Expr × UInt32)}
    {line line' : UInt32}

theorem conditionLength_twin (h : Expr.TwinOption condition condition') :
    conditionLength condition' = conditionLength condition := by
  cases h with
  | none => rfl
  | some h => exact congrArg (· + 4) h.length

theorem conditionCode_twin (h : Expr.TwinOption condition condition') (k : Nat) (locals : List Local)
    (count height rest : Nat) :
    (conditionCode locals (count + k) height line' rest condition').shifted 0 =
      (conditionCode locals count height line rest condition).shifted k := by
  cases h with
  | none => rfl
  | some h =>
    simp only [conditionCode, Fragment.shifted_append]
    rw [h.code]
    rfl

theorem conditionCode_clear (h : Expr.TwinOption condition condition') {locals : List Local}
    (count height rest : Nat) (hallowed : ∀ e ∈ condition, e.Allowed locals) (hraised : Local.Raised locals) :
    (conditionCode locals count height line rest condition).Clear height := by
  cases h with
  | none => exact Fragment.clear_empty
  | some h => simp [conditionCode, h.clear _ _ (hallowed _ rfl) hraised, Instruction.Tame, Instruction.takes]

theorem incrementLength_twin (h : Expr.TwinClause increment increment') :
    incrementLength increment' = incrementLength increment := by
  cases h with
  | none => rfl
  | some h => exact congrArg (· + 7) h.length

theorem incrementCode_twin (h : Expr.TwinClause increment increment') (k : Nat) (locals : List Local)
    (count height length : Nat) :
    (incrementCode locals (count + k) height line' length increment').shifted 0 =
      (incrementCode locals count height line length increment).shifted k := by
  cases h with
  | none => rfl
  | some h =>
    simp only [incrementCode, Fragment.shifted_append]
    rw [h.code, h.length]
    rfl

theorem incrementCode_clear (h : Expr.TwinClause increment increment') {locals : List Local}
    (count height length : Nat)
    (hallowed : ∀ e ∈ increment, e.1.Allowed locals) (hraised : Local.Raised locals) :
    (incrementCode locals count height line length increment).Clear height := by
  cases h with
  | none => exact Fragment.clear_empty
  | some h => simp [incrementCode, h.clear _ _ (hallowed _ rfl) hraised, Instruction.Tame, Instruction.takes]

theorem roundLength_twin (h : Expr.TwinOption condition condition') (h' : Expr.TwinClause increment increment')
    (length : Nat) : roundLength condition' increment' length = roundLength condition increment length := by
  cases h' with
  | none => rw [roundLength, roundLength, conditionLength_twin h]
  | some h' => rw [roundLength, roundLength, h'.length]

theorem exitCode_twin (h : Expr.TwinOption condition condition') (k height : Nat) :
    (exitCode line' height condition').shifted 0 = (exitCode line height condition).shifted k := by
  cases h <;> rfl

theorem exitCode_clear (height : Nat) (condition : Option Expr) :
    (exitCode line height condition).Clear height := by
  cases condition with
  | none => exact Fragment.clear_empty
  | some e => exact Fragment.clear_single.mpr ⟨⟨nofun, nofun, nofun⟩, Nat.le_refl _⟩

end Stmt

/-! ### Statements -/

/-- Statements that are read from the same text. -/
structure Stmt.Twin (s s' : Stmt) : Prop where
  length : s'.length = s.length
  code : ∀ (k : Nat) (scope : Scope) (count : Nat), (s'.code scope (count + k)).shifted 0 =
    (s.code scope count).shifted k
  clear : ∀ {scope : Scope} (count : Nat), s.Allowed true scope → scope.Roomy → scope.Bottomed →
    (s.code scope count).Clear scope.height

/-- Declarations that are read from the same text. -/
structure Decl.Twin (d d' : Decl) : Prop where
  name : d'.name? = d.name?
  length : ∀ isGlobal, d'.length isGlobal = d.length isGlobal
  code : ∀ (k : Nat) (scope : Scope) (count : Nat), (d'.code scope (count + k)).shifted 0 =
    (d.code scope count).shifted k
  clear : ∀ {scope : Scope} (count : Nat), d.Allowed true scope → scope.Roomy → scope.Bottomed →
    (d.code scope count).Clear scope.height

/-- Sequences of declarations that are read from the same text. -/
structure Decl.Twins (ds ds' : List Decl) : Prop where
  names : ds'.filterMap Decl.name? = ds.filterMap Decl.name?
  length : ∀ isGlobal, Decl.lengths isGlobal ds' = Decl.lengths isGlobal ds
  after : ∀ scope : Scope, scope.afterAll ds' = scope.afterAll ds
  code : ∀ (k : Nat) (scope : Scope) (count : Nat),
    (Decl.codes scope (count + k) ds').shifted 0 = (Decl.codes scope count ds).shifted k
  clear : ∀ {scope : Scope} (count : Nat), Decl.AllAllowed true scope ds → scope.Roomy → scope.Bottomed →
    (Decl.codes scope count ds).Clear scope.height

namespace Stmt.Twin

variable {e e' : Expr} {s s' t t' : Stmt} {line line' : UInt32}

theorem constants (h : s.Twin s') (k : Nat) (scope : Scope) (count : Nat) :
    (s'.code scope (count + k)).constants.length = (s.code scope count).constants.length :=
  Fragment.length_of_shifted (h.code k scope count)

theorem print (h : e.Twin e') : (Stmt.print e line).Twin (.print e' line') where
  length := by rw [Stmt.length, Stmt.length, h.length]
  code k scope count := by
    simp only [Stmt.code, Fragment.shifted_append]
    rw [h.code]
    rfl
  clear count hallowed hroomy hbottomed := by
    simp [Stmt.code, h.clear _ _ hallowed (hbottomed.raised hroomy), Instruction.Tame, Instruction.takes]

theorem expression (h : e.Twin e') : (Stmt.expression e line).Twin (.expression e' line') where
  length := by rw [Stmt.length, Stmt.length, h.length]
  code k scope count := by
    simp only [Stmt.code, Fragment.shifted_append]
    rw [h.code]
    rfl
  clear count hallowed hroomy hbottomed := by
    simp [Stmt.code, h.clear _ _ hallowed (hbottomed.raised hroomy), Instruction.Tame, Instruction.takes]

theorem bareReturn : (Stmt.ret none line).Twin (.ret none line') where
  length := rfl
  code _ _ _ := rfl
  clear _ hallowed := by cases hallowed

theorem ret (h : e.Twin e') : (Stmt.ret (some e) line).Twin (.ret (some e') line') where
  length := by rw [Stmt.length, Stmt.length, h.length]
  code k scope count := by
    simp only [Stmt.code, Fragment.shifted_append]
    rw [h.code]
    rfl
  clear _ hallowed := by cases hallowed.1

theorem ifThen (h : e.Twin e') (hs : s.Twin s') :
    (Stmt.ifElse e line s none).Twin (.ifElse e' line' s' none) where
  length := by rw [Stmt.length, Stmt.length, h.length, hs.length]
  code k scope count := by
    simp only [Stmt.code, Fragment.shifted_append]
    rw [h.constants, Nat.add_right_comm, h.code, hs.code, hs.length]
    rfl
  clear count hallowed hroomy hbottomed := by
    simp [Stmt.code, h.clear _ _ hallowed.1 (hbottomed.raised hroomy), hs.clear _ hallowed.2.1 hroomy hbottomed,
      Instruction.Tame, Instruction.takes]

theorem ifElse (h : e.Twin e') (hs : s.Twin s') (ht : t.Twin t') :
    (Stmt.ifElse e line s (some t)).Twin (.ifElse e' line' s' (some t')) where
  length := by rw [Stmt.length, Stmt.length, h.length, hs.length, ht.length]
  code k scope count := by
    simp only [Stmt.code, Fragment.shifted_append]
    rw [h.constants, Nat.add_right_comm count k, hs.constants, Nat.add_right_comm _ k, h.code, hs.code,
      ht.code, hs.length, ht.length]
    rfl
  clear count hallowed hroomy hbottomed := by
    simp [Stmt.code, h.clear _ _ hallowed.1 (hbottomed.raised hroomy), hs.clear _ hallowed.2.1 hroomy hbottomed,
      ht.clear _ hallowed.2.2.1 hroomy hbottomed, Instruction.Tame, Instruction.takes]

theorem whileLoop (h : e.Twin e') (hs : s.Twin s') :
    (Stmt.whileLoop e line s).Twin (.whileLoop e' line' s') where
  length := by rw [Stmt.length, Stmt.length, h.length, hs.length]
  code k scope count := by
    simp only [Stmt.code, Fragment.shifted_append]
    rw [h.constants, Nat.add_right_comm, h.code, hs.code, hs.length, h.length]
    rfl
  clear count hallowed hroomy hbottomed := by
    simp [Stmt.code, h.clear _ _ hallowed.1 (hbottomed.raised hroomy), hs.clear _ hallowed.2.1 hroomy hbottomed,
      Instruction.Tame, Instruction.takes]

theorem forLoop {i i' : Initializer} {condition condition' : Option Expr}
    {increment increment' : Option (Expr × UInt32)}
    (hi : i.Twin i') (hcondition : Expr.TwinOption condition condition')
    (hincrement : Expr.TwinClause increment increment')
    (hs : s.Twin s') : (Stmt.forLoop i condition line increment s).Twin
    (.forLoop i' condition' line' increment' s') where
  length := by
    have hsome : condition'.isSome = condition.isSome := by cases hcondition <;> rfl
    rw [Stmt.length, Stmt.length, hi.length, hi.name, conditionLength_twin hcondition,
      incrementLength_twin hincrement, hs.length, hsome]
  code k scope count := by
    have hfirst := Fragment.length_of_shifted (hi.code k scope.inner count)
    have hsecond (locals : List Local) (count height rest : Nat) :=
      Fragment.length_of_shifted (@conditionCode_twin _ _ line line' hcondition k locals count height rest)
    have hthird (locals : List Local) (count height length : Nat) :=
      Fragment.length_of_shifted (@incrementCode_twin _ _ line line' hincrement k locals count height length)
    simp only [Stmt.code, Fragment.shifted_append, hi.name, hs.length, conditionLength_twin hcondition,
      incrementLength_twin hincrement, roundLength_twin hcondition hincrement, hfirst]
    rw [Nat.add_right_comm count k, hsecond, Nat.add_right_comm _ k, hthird, Nat.add_right_comm _ k, hi.code,
      hs.code, @conditionCode_twin _ _ line line' hcondition, @incrementCode_twin _ _ line line' hincrement,
      @exitCode_twin _ _ s.endLine s'.endLine hcondition k, Fragment.shifted_pops, Fragment.shifted_pops]
    rfl
  clear {scope} count hallowed hroomy hbottomed := by
    obtain ⟨hfirst, hsecond, hthird, hbody, -⟩ := hallowed
    have hroomy' : scope.inner.Roomy := hroomy
    have hbottomed' : scope.inner.Bottomed := hbottomed
    have hinner := hroomy'.after hfirst.admits
    have hbottom := hbottomed'.after i.name?
    have hle := scope.height_le_after_inner i.name?
    simp only [Stmt.code, Fragment.clear_append, Fragment.clear_single]
    refine ⟨⟨⟨⟨⟨⟨?_, ?_⟩, ?_⟩, ?_⟩, ⟨nofun, nofun, nofun⟩, hle⟩, ?_⟩, Fragment.clear_pops _⟩
    · exact hi.clear count hfirst hroomy hbottomed
    · exact (conditionCode_clear hcondition _ _ _ hsecond (hbottom.raised hinner)).mono hle
    · exact (incrementCode_clear hincrement _ _ _ hthird (hbottom.raised hinner)).mono hle
    · exact (hs.clear _ hbody hinner hbottom).mono hle
    · exact (exitCode_clear _ condition).mono hle

theorem block {ds ds' : List Decl} (h : Decl.Twins ds ds') : (Stmt.block ds line).Twin (.block ds' line') where
  length := by rw [Stmt.length, Stmt.length, h.length, h.names]
  code k scope count := by
    simp only [Stmt.code, Fragment.shifted_append]
    rw [h.code, h.names]
    simp
  clear count hallowed hroomy hbottomed := by
    simp only [Stmt.code, Fragment.clear_append]
    exact ⟨h.clear count hallowed hroomy hbottomed, Fragment.clear_pops _⟩

end Stmt.Twin

/-! ### Declarations -/

namespace Fragment

@[simp] theorem instruction_shifted_zero (i : Instruction) : i.shifted 0 = i := by
  cases i <;> simp [Instruction.shifted]

theorem bytes_shifted_zero (a : Fragment) : (a.shifted 0).bytes = a.bytes := by
  simp [bytes, shifted, List.flatMap_map]

end Fragment

/-- Functions with the same parameters and twin bodies are equal without their lines. -/
theorem Routine.unlined_eq {place place' : Nat} {parameters : List String} {body body' : List Decl}
    {line line' : UInt32} (h : Decl.Twins body body') (name : Option String) :
    (Routine.function name ⟨place', parameters, body', line'⟩).unlined =
      (Routine.function name ⟨place, parameters, body, line⟩).unlined := by
  have hcode := h.code 0 (Scope.ofRoutine name parameters) 0
  have hbytes := congrArg Fragment.bytes hcode
  have hconstants := congrArg Fragment.constants hcode
  simp only [Fragment.bytes_shifted_zero] at hbytes
  refine Function.unlined_eq_iff.mpr ⟨rfl, rfl, ?_, ?_⟩
  · simp only [Routine.function, Fragment.bytes_append, h.after]
    rw [hbytes]
    rfl
  · simpa [Routine.function, Fragment.shifted] using hconstants

namespace Decl

variable {d d' : Decl} {ds ds' : List Decl}

theorem Twin.constants (h : d.Twin d') (k : Nat) (scope : Scope) (count : Nat) :
    (d'.code scope (count + k)).constants.length = (d.code scope count).constants.length :=
  Fragment.length_of_shifted (h.code k scope count)

theorem Twin.var {v v' : Variable} (h : v.Twin v') : (Decl.var v).Twin (.var v') where
  name := congrArg some h.name
  length := h.length
  code := h.code
  clear := h.clear

theorem Twin.statement {s s' : Stmt} (h : s.Twin s') : (Decl.statement s).Twin (.statement s') where
  name := rfl
  length _ := h.length
  code := h.code
  clear := h.clear

theorem Twin.function {name : String} {place place' : Nat} {parameters : List String} {body body' : List Decl}
    {line line' : UInt32} (h : Twins body body') :
    (Decl.function name ⟨place, parameters, body, line⟩).Twin
      (.function name ⟨place', parameters, body', line'⟩) where
  name := rfl
  length _ := rfl
  code k scope count := by
    have hfunction :
        Constant.unlined (.function (Routine.function (some name) ⟨place', parameters, body', line'⟩)) =
        Constant.unlined (.function (Routine.function (some name) ⟨place, parameters, body, line⟩)) :=
      congrArg Constant.function (Routine.unlined_eq h (some name))
    rw [Decl.code, Decl.code]
    split
    · simp only [Fragment.shifted_append, Fragment.shifted_pool, hfunction, Nat.add_right_comm count k 1]
      simp [Instruction.shifted]
    · simp only [Fragment.shifted_append, Fragment.shifted_pool, hfunction]
      simp [Instruction.shifted]
  clear count _ _ _ := by
    rw [Decl.code]
    split <;> simp [Instruction.Tame, Instruction.takes]

theorem Twins.nil : Twins [] [] where
  names := rfl
  length _ := rfl
  after _ := rfl
  code _ _ _ := rfl
  clear _ _ _ _ := Fragment.clear_empty

theorem Twins.cons (h : d.Twin d') (hs : Twins ds ds') : Twins (d :: ds) (d' :: ds') where
  names := by rw [List.filterMap_cons, List.filterMap_cons, h.name, hs.names]
  length isGlobal := by rw [lengths, lengths, h.length, hs.length]
  after scope := by rw [Scope.afterAll, Scope.afterAll, h.name, hs.after]
  code k scope count := by
    simp only [codes, Fragment.shifted_append]
    rw [h.constants, Nat.add_right_comm, h.name, h.code, hs.code]
  clear {scope} count hallowed hroomy hbottomed := by
    have hle : scope.height ≤ (scope.after d.name?).height := by
      cases d.name? with
      | none => exact Nat.le_refl _
      | some name =>
        rw [Scope.after, Scope.height_declare]
        exact Nat.le_add_right _ _
    simp only [codes, Fragment.clear_append]
    exact ⟨h.clear count hallowed.1 hroomy hbottomed,
      (hs.clear _ hallowed.2 (hroomy.after hallowed.1.admits) (hbottomed.after _)).mono hle⟩

end Decl

end Lox
