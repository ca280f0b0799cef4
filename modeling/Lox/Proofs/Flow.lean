import Lox.Proofs.Layout

/-! # Heights along code

A function flows at given depths if, at every place that has a depth, an instruction stands that finds the
values and the operands that it needs, and every place to which it can lead has the depth that it leaves. The
code of a tree flows at the heights of its instructions. -/

namespace Lox

namespace Instruction

/-- How many values of its call an instruction reads off the top of the stack. -/
def takes : Instruction → Nat
  | constant _ | nil | trueValue | falseValue | getLocal _ | getGlobal _ | jump _ | loop _ => 0
  | pop | setLocal _ | defineGlobal _ | setGlobal _ | logicalNot | negate | print | jumpIfFalse _ | ret => 1
  | equal | greater | less | add | subtract | multiply | divide => 2
  | call count => count.toNat + 1

/-- How many values an instruction leaves in the place of those. -/
def gives : Instruction → Nat
  | pop | defineGlobal _ | print | jump _ | loop _ | ret => 0
  | constant _ | nil | trueValue | falseValue | getLocal _ | setLocal _ | getGlobal _ | setGlobal _ | equal
  | greater | less
  | add | subtract | multiply | divide | logicalNot | negate | jumpIfFalse _ | call _ => 1

/-- The places to which an instruction that stands at `offset` can lead within its function. -/
def leads (offset : Nat) : Instruction → List Nat
  | jump distance => [offset + 3 + distance.toNat]
  | jumpIfFalse distance => [offset + 3, offset + 3 + distance.toNat]
  | loop distance => [offset + 3 - distance.toNat]
  | ret => []
  | i => [offset + i.size]

/-- The operands of an instruction at `offset` are right for a call with the given height. -/
def OperandsFit (chunk : Chunk) (offset height : Nat) : Instruction → Prop
  | constant index => ∃ constant, chunk.constant? index = some constant
  | getGlobal index | defineGlobal index | setGlobal index =>
    ∃ name, chunk.constant? index = some (.string name)
  | getLocal slot | setLocal slot => slot.toNat < height
  | jump distance | jumpIfFalse distance => distance.toNat ≤ Compiler.maxJump
  | loop distance => distance.toNat ≤ offset + 3 ∧ distance.toNat ≤ Compiler.maxJump
  | _ => True

/-- An instruction at `offset`, for a call with the given height, flows at the given depths. -/
structure Flows (chunk : Chunk) (depth : Nat → Option Nat) (offset height : Nat) (i : Instruction) : Prop where
  takes : i.takes ≤ height
  operands : i.OperandsFit chunk offset height
  leads : ∀ place ∈ i.leads offset, depth place = some (height - i.takes + i.gives)

end Instruction

/-- A function flows at the given depths. -/
structure Function.Flows (f : Function) (depth : Nat → Option Nat) : Prop where
  entry : depth 0 = some (f.arity.toNat + 1)
  inside : ∀ {offset height : Nat}, depth offset = some height → ∃ i : Instruction,
    Instruction.read f.chunk.code offset = .instruction i ∧ i.Flows f.chunk depth offset height

/-! ### Fragments in a function -/

/-- A fragment has its heights as depths where it stands. -/
def Fragment.Marked (depth : Nat → Option Nat) (place : Nat) (f : Fragment) : Prop :=
  f.Along (fun offset item => depth offset = some item.height) place

/-- The instructions of a fragment flow where it stands. -/
def Fragment.Flows (chunk : Chunk) (depth : Nat → Option Nat) (place : Nat) (f : Fragment) : Prop :=
  f.Along (fun offset item => item.instruction.Flows chunk depth offset item.height) place

/-- A fragment stands in a function, with its constants in the pool. -/
structure Fragment.Stands (chunk : Chunk) (depth : Nat → Option Nat) (place count : Nat)
    (f : Fragment) : Prop where
  marked : f.Marked depth place
  pooled : Constant.Pooled chunk.constants count f.constants

namespace Fragment

variable {chunk : Chunk} {depth : Nat → Option Nat} {place count height : Nat} {f g : Fragment} {line : UInt32}
  {i : Instruction}

theorem stands_append : (f ++ g).Stands chunk depth place count ↔
    f.Stands chunk depth place count ∧ g.Stands chunk depth (place + f.size) (count + f.constants.length) := by
  constructor
  · rintro ⟨hmarked, hpooled⟩
    obtain ⟨hf, hg⟩ := along_append.mp hmarked
    obtain ⟨hf', hg'⟩ := Constant.pooled_append.mp hpooled
    exact ⟨⟨hf, hf'⟩, hg, hg'⟩
  · rintro ⟨⟨hf, hf'⟩, hg, hg'⟩
    exact ⟨along_append.mpr ⟨hf, hg⟩, Constant.pooled_append.mpr ⟨hf', hg'⟩⟩

theorem stands_single : (single line height i).Stands chunk depth place count ↔ depth place = some height :=
  ⟨fun h => along_single.mp h.marked, fun h => ⟨along_single.mpr h, trivial⟩⟩

theorem stands_pool {constant : Constant} :
    (pool constant).Stands chunk depth place count ↔ chunk.constants[count]? = some constant :=
  ⟨fun h => Constant.pooled_singleton.mp h.pooled, fun h => ⟨trivial, Constant.pooled_singleton.mpr h⟩⟩

theorem flows_append : (f ++ g).Flows chunk depth place ↔ f.Flows chunk depth place ∧
    g.Flows chunk depth (place + f.size) :=
  along_append

theorem flows_single : (single line height i).Flows chunk depth place ↔ i.Flows chunk depth place height :=
  along_single

/-- Pops lead from the height above to the one below. -/
theorem flows_pops {n : Nat} (h : (pops line height n).Stands chunk depth place count)
    (hexit : depth (place + n) = some height) :
    depth place = some (height + n) ∧ (pops line height n).Flows chunk depth place := by
  induction n generalizing place count with
  | zero => exact ⟨hexit, trivial⟩
  | succ n ih =>
    obtain ⟨hfirst, hrest⟩ := stands_append.mp h
    have hhere : depth place = some (height + n + 1) := stands_single.mp hfirst
    rw [size_single, Instruction.size_pop] at hrest
    obtain ⟨hnext, hflows⟩ := ih hrest (by rw [← hexit]; congr 1; omega)
    refine ⟨hhere, flows_append.mpr ⟨flows_single.mpr ⟨?_, trivial, ?_⟩, hflows⟩⟩
    · exact Nat.le_add_left 1 (height + n)
    · intro p hp
      rw [List.mem_singleton.mp hp]
      exact hnext

/-- An instruction after which the next one follows. -/
theorem flows_straight (htakes : i.takes ≤ height) (hoperands : i.OperandsFit chunk place height)
    (hleads : i.leads place = [place + i.size])
    (hexit : depth (place + i.size) = some (height - i.takes + i.gives)) :
    (single line height i).Flows chunk depth place := by
  refine flows_single.mpr ⟨htakes, hoperands, fun p hp => ?_⟩
  rw [hleads] at hp
  rw [List.mem_singleton.mp hp]
  exact hexit

end Fragment

/-- The same depth at the same place. -/
theorem depth_congr {depth : Nat → Option Nat} {p q h k : Nat} (hdepth : depth p = some h) (hp : q = p)
    (hk : h = k) :
    depth q = some k := by
  rw [hp, hdepth, hk]

/-! ### Expressions -/

/-- The locals that can be mentioned lie among the values that a call has, and their slots
    fit into an operand. -/
def Local.Within (locals : List Local) (height : Nat) : Prop :=
  ∀ name slot loc, Local.resolve? name locals = some (slot, loc) → loc.depth ≠ none → slot < height ∧ slot < 256

theorem Local.Within.mono {locals : List Local} {m n : Nat} (h : Local.Within locals m) (hle : m ≤ n) :
    Local.Within locals n := by
  intro name slot loc hfound hdepth
  obtain ⟨hlt, hsmall⟩ := h name slot loc hfound hdepth
  exact ⟨by omega, hsmall⟩

theorem Local.resolve?_lt {name : String} {locals : List Local} {slot : Nat} {loc : Local}
    (h : Local.resolve? name locals = some (slot, loc)) : slot < locals.length := by
  induction locals with
  | nil => cases h
  | cons first locals ih =>
    rw [Local.resolve?] at h
    split at h
    · cases h
      exact Nat.lt_succ_self _
    · exact Nat.lt_succ_of_lt (ih h)

section

variable {chunk : Chunk} {depth : Nat → Option Nat} {locals : List Local}

theorem Literal.flows (hroom : chunk.constants.length ≤ Chunk.maxConstants) (value : Literal) {line : UInt32}
    {place count height : Nat} (hstands : (value.code line count height).Stands chunk depth place count)
    (hexit : depth (place + (Expr.literal value line).length) = some (height + 1)) :
    depth place = some height ∧ (value.code line count height).Flows chunk depth place := by
  cases value with
  | nil => exact ⟨Fragment.stands_single.mp hstands, Fragment.flows_straight (Nat.zero_le _) trivial rfl hexit⟩
  | bool b =>
    cases b with
    | false =>
      exact ⟨Fragment.stands_single.mp hstands, Fragment.flows_straight (Nat.zero_le _) trivial rfl hexit⟩
    | true =>
      exact ⟨Fragment.stands_single.mp hstands, Fragment.flows_straight (Nat.zero_le _) trivial rfl hexit⟩
  | number bits | string text =>
    obtain ⟨hpool, hsingle⟩ := Fragment.stands_append.mp hstands
    have hconstant := Chunk.constant?_operandByte hroom (Fragment.stands_pool.mp hpool)
    refine ⟨Fragment.stands_single.mp hsingle, Fragment.flows_append.mpr ⟨trivial, ?_⟩⟩
    exact Fragment.flows_straight (Nat.zero_le _) ⟨_, hconstant⟩ rfl hexit

theorem BinaryOp.flows (op : BinaryOp) {line : UInt32} {place count height : Nat}
    (hstands : (op.code line height).Stands chunk depth place count)
    (hexit : depth (place + if op.negated then 2 else 1) = some (height + 1)) :
    depth place = some (height + 2) ∧ (op.code line height).Flows chunk depth place := by
  have htakes : op.instruction.takes = 2 := by cases op <;> rfl
  have hgives : op.instruction.gives = 1 := by cases op <;> rfl
  have hsize : op.instruction.size = 1 := by cases op <;> rfl
  have hleads : op.instruction.leads place = [place + op.instruction.size] := by cases op <;> rfl
  have hoperands : op.instruction.OperandsFit chunk place (height + 2) := by cases op <;> exact trivial
  obtain ⟨hfirst, hsecond⟩ := Fragment.stands_append.mp hstands
  refine ⟨Fragment.stands_single.mp hfirst, Fragment.flows_append.mpr ?_⟩
  rw [Fragment.size_single, hsize] at hsecond ⊢
  by_cases hnegated : op.negated = true
  · rw [if_pos hnegated] at hsecond hexit ⊢
    have hmiddle := Fragment.stands_single.mp hsecond
    refine ⟨Fragment.flows_straight (by omega) hoperands hleads ?_, Fragment.flows_straight ?_ trivial rfl ?_⟩
    · rw [htakes, hgives, hsize]
      exact hmiddle
    · exact Nat.le_add_left 1 height
    · exact hexit
  · rw [if_neg hnegated] at hsecond hexit ⊢
    refine ⟨Fragment.flows_straight (by omega) hoperands hleads ?_, trivial⟩
    rw [htakes, hgives, hsize]
    exact hexit

/-- A forward jump over `n` bytes, which keeps the height. -/
theorem flows_jump {line : UInt32} {place height n : Nat} (hn : n ≤ Compiler.maxJump)
    (hexit : depth (place + 3 + n) = some height) :
    (Fragment.single line height (.jump (operandWord n))).Flows chunk depth place := by
  have hword : (operandWord n).toNat = n := toNat_operandWord hn
  refine Fragment.flows_single.mpr ⟨Nat.zero_le _, ?_, fun p hp => ?_⟩
  · rw [Instruction.OperandsFit, hword]
    exact hn
  · rw [List.mem_singleton.mp hp, hword]
    exact hexit

/-- A jump over `n` bytes that is taken on a falsy value, which stays. -/
theorem flows_jumpIfFalse {line : UInt32} {place height n : Nat} (hn : n ≤ Compiler.maxJump)
    (hnext : depth (place + 3) = some (height + 1)) (hexit : depth (place + 3 + n) = some (height + 1)) :
    (Fragment.single line (height + 1) (.jumpIfFalse (operandWord n))).Flows chunk depth place := by
  have hword : (operandWord n).toNat = n := toNat_operandWord hn
  refine Fragment.flows_single.mpr ⟨Nat.le_add_left 1 height, ?_, fun p hp => ?_⟩
  · rw [Instruction.OperandsFit, hword]
    exact hn
  · rcases List.mem_cons.mp hp with rfl | hp
    · exact hnext
    · rw [List.mem_singleton.mp hp, hword]
      exact hexit

theorem flows_pop {line : UInt32} {place height : Nat} (hexit : depth (place + 1) = some height) :
    (Fragment.single line (height + 1) .pop).Flows chunk depth place :=
  Fragment.flows_straight (Nat.le_add_left 1 height) trivial rfl hexit

mutual

theorem Expr.flows (hroom : chunk.constants.length ≤ Chunk.maxConstants) :
    ∀ (e : Expr) {place count height : Nat},
    e.Allowed locals → Local.Within locals height →
      (e.code locals count height).Stands chunk depth place count →
    depth (place + e.length) = some (height + 1) →
    depth place = some height ∧ (e.code locals count height).Flows chunk depth place
  | .literal value line, place, count, height, _, _, hstands, hexit => value.flows hroom hstands hexit
  | .mention name line, place, count, height, hallowed, hwithin, hstands, hexit => by
    rw [Expr.code] at hstands ⊢
    split at hstands <;> rename_i hfound
    · obtain ⟨hlt, hsmall⟩ := hwithin name _ _ hfound (hallowed _ _ hfound)
      refine ⟨Fragment.stands_single.mp hstands, Fragment.flows_straight (Nat.zero_le _) ?_ rfl hexit⟩
      rw [Instruction.OperandsFit, toNat_operandByte hsmall]
      exact hlt
    · obtain ⟨hpool, hsingle⟩ := Fragment.stands_append.mp hstands
      have hname := Chunk.constant?_operandByte hroom (Fragment.stands_pool.mp hpool)
      refine ⟨Fragment.stands_single.mp hsingle, Fragment.flows_append.mpr ⟨trivial, ?_⟩⟩
      exact Fragment.flows_straight (Nat.zero_le _) ⟨name, hname⟩ rfl hexit
  | .assign name value, place, count, height, hallowed, hwithin, hstands, hexit => by
    obtain ⟨husable, hvalue⟩ := hallowed
    rw [Expr.code] at hstands ⊢
    rw [Expr.length] at hexit
    split at hstands <;> rename_i hfound
    · obtain ⟨hlt, hsmall⟩ := hwithin name _ _ hfound (husable _ _ hfound)
      obtain ⟨hfirst, hset⟩ := Fragment.stands_append.mp hstands
      rw [Expr.size_code] at hset
      obtain ⟨hentry, hflows⟩ := value.flows hroom hvalue hwithin hfirst (Fragment.stands_single.mp hset)
      refine ⟨hentry, Fragment.flows_append.mpr ⟨hflows, ?_⟩⟩
      rw [Expr.size_code]
      refine Fragment.flows_straight (Nat.le_add_left 1 height) ?_ rfl hexit
      rw [Instruction.OperandsFit, toNat_operandByte hsmall]
      exact Nat.lt_succ_of_lt hlt
    · rw [Fragment.append_assoc] at hstands ⊢
      obtain ⟨hpool, hrest⟩ := Fragment.stands_append.mp hstands
      have hname := Chunk.constant?_operandByte hroom (Fragment.stands_pool.mp hpool)
      obtain ⟨hfirst, hset⟩ := Fragment.stands_append.mp hrest
      rw [Expr.size_code] at hset
      obtain ⟨hentry, hflows⟩ := value.flows hroom hvalue hwithin hfirst (Fragment.stands_single.mp hset)
      refine ⟨hentry, Fragment.flows_append.mpr ⟨trivial, Fragment.flows_append.mpr ⟨hflows, ?_⟩⟩⟩
      rw [Expr.size_code]
      exact Fragment.flows_straight (Nat.le_add_left 1 height) ⟨name, hname⟩ rfl hexit
  | .group inner _, place, count, height, hallowed, hwithin, hstands, hexit => by
    rw [Expr.code] at hstands ⊢
    exact inner.flows hroom hallowed hwithin hstands hexit
  | .unary op operand, place, count, height, hallowed, hwithin, hstands, hexit => by
    rw [Expr.code] at hstands ⊢
    obtain ⟨hfirst, hop⟩ := Fragment.stands_append.mp hstands
    rw [Expr.size_code] at hop
    obtain ⟨hentry, hflows⟩ := operand.flows hroom hallowed hwithin hfirst (Fragment.stands_single.mp hop)
    refine ⟨hentry, Fragment.flows_append.mpr ⟨hflows, ?_⟩⟩
    rw [Expr.size_code]
    cases op <;> exact Fragment.flows_straight (Nat.le_add_left 1 height) trivial rfl hexit
  | .binary op left right, place, count, height, hallowed, hwithin, hstands, hexit => by
    obtain ⟨hleft, hright⟩ := hallowed
    rw [Expr.code] at hstands ⊢
    obtain ⟨hoperands, hop⟩ := Fragment.stands_append.mp hstands
    obtain ⟨hfirst, hsecond⟩ := Fragment.stands_append.mp hoperands
    simp only [Fragment.size_append, Expr.size_code] at hop hsecond
    rw [Expr.length, ← Nat.add_assoc] at hexit
    obtain ⟨hop', hflows⟩ := op.flows hop hexit
    obtain ⟨hmiddle, hflows₂⟩ := right.flows hroom hright (hwithin.mono (Nat.le_succ _)) hsecond
      (depth_congr hop' (Nat.add_assoc ..) rfl)
    obtain ⟨hentry, hflows₁⟩ := left.flows hroom hleft hwithin hfirst hmiddle
    refine ⟨hentry, Fragment.flows_append.mpr ⟨Fragment.flows_append.mpr ⟨hflows₁, ?_⟩, ?_⟩⟩
    · rw [Expr.size_code]
      exact hflows₂
    · simp only [Fragment.size_append, Expr.size_code]
      exact hflows
  | .and left line right, place, count, height, hallowed, hwithin, hstands, hexit => by
    obtain ⟨hleft, hright, hjump⟩ := hallowed
    rw [Expr.code] at hstands ⊢
    obtain ⟨hhead, hsecond⟩ := Fragment.stands_append.mp hstands
    obtain ⟨hhead, hpop⟩ := Fragment.stands_append.mp hhead
    obtain ⟨hfirst, htest⟩ := Fragment.stands_append.mp hhead
    have hpop' := Fragment.stands_single.mp hpop
    have htest' := Fragment.stands_single.mp htest
    simp only [Fragment.size_append, Fragment.size_single, Expr.size_code, Fragment.constants_append,
      Fragment.constants_single, List.append_nil, Instruction.size_jumpIfFalse,
      Instruction.size_pop] at hsecond hpop' htest'
    rw [Expr.length] at hexit
    obtain ⟨hmiddle, hflows₂⟩ := right.flows hroom hright hwithin hsecond (depth_congr hexit (by omega) rfl)
    obtain ⟨hentry, hflows₁⟩ := left.flows hroom hleft hwithin hfirst htest'
    refine ⟨hentry, ?_⟩
    simp only [Fragment.flows_append, Fragment.size_append, Fragment.size_single, Expr.size_code,
      Instruction.size_jumpIfFalse, Instruction.size_pop]
    exact ⟨⟨⟨hflows₁, flows_jumpIfFalse hjump hpop' (depth_congr hexit (by omega) rfl)⟩, flows_pop hmiddle⟩,
      hflows₂⟩
  | .or left line right, place, count, height, hallowed, hwithin, hstands, hexit => by
    obtain ⟨hleft, hright, hjump⟩ := hallowed
    rw [Expr.code] at hstands ⊢
    obtain ⟨hhead, hsecond⟩ := Fragment.stands_append.mp hstands
    obtain ⟨hhead, hpop⟩ := Fragment.stands_append.mp hhead
    obtain ⟨hhead, hover⟩ := Fragment.stands_append.mp hhead
    obtain ⟨hfirst, htest⟩ := Fragment.stands_append.mp hhead
    have hpop' := Fragment.stands_single.mp hpop
    have hover' := Fragment.stands_single.mp hover
    have htest' := Fragment.stands_single.mp htest
    simp only [Fragment.size_append, Fragment.size_single, Expr.size_code, Fragment.constants_append,
      Fragment.constants_single, List.append_nil, Instruction.size_jumpIfFalse, Instruction.size_jump,
      Instruction.size_pop] at hsecond hpop' hover' htest'
    rw [Expr.length] at hexit
    obtain ⟨hmiddle, hflows₂⟩ := right.flows hroom hright hwithin hsecond (depth_congr hexit (by omega) rfl)
    obtain ⟨hentry, hflows₁⟩ := left.flows hroom hleft hwithin hfirst htest'
    refine ⟨hentry, ?_⟩
    simp only [Fragment.flows_append, Fragment.size_append, Fragment.size_single, Expr.size_code,
      Instruction.size_jumpIfFalse, Instruction.size_jump, Instruction.size_pop]
    exact ⟨⟨⟨⟨hflows₁, flows_jumpIfFalse (by decide) hover' hpop'⟩,
      flows_jump hjump (depth_congr hexit (by omega) rfl)⟩, flows_pop hmiddle⟩, hflows₂⟩
  | .call callee arguments line, place, count, height, hallowed, hwithin, hstands, hexit => by
    obtain ⟨hcallee, harguments, hlength⟩ := hallowed
    rw [Expr.code] at hstands ⊢
    obtain ⟨hhead, hcall⟩ := Fragment.stands_append.mp hstands
    obtain ⟨hfirst, hsecond⟩ := Fragment.stands_append.mp hhead
    have hcall' := Fragment.stands_single.mp hcall
    simp only [Fragment.size_append, Expr.size_code, Expr.size_codes] at hsecond hcall'
    rw [Expr.length] at hexit
    obtain ⟨hmiddle, hflows₂⟩ := Expr.flowsAll hroom arguments harguments (hwithin.mono (Nat.le_succ _)) hsecond
      (depth_congr hcall' (Nat.add_assoc ..) rfl)
    obtain ⟨hentry, hflows₁⟩ := callee.flows hroom hcallee hwithin hfirst hmiddle
    refine ⟨hentry, ?_⟩
    simp only [Fragment.flows_append, Fragment.size_append, Expr.size_code, Expr.size_codes]
    have hcount : (operandByte arguments.length).toNat = arguments.length := toNat_operandByte (by omega)
    refine ⟨⟨hflows₁, hflows₂⟩, Fragment.flows_straight ?_ trivial rfl ?_⟩
    · rw [Instruction.takes, hcount]
      omega
    · rw [Instruction.takes, hcount]
      exact depth_congr hexit (by rw [Instruction.size_call]; omega) (by simp only [Instruction.gives]; omega)

theorem Expr.flowsAll (hroom : chunk.constants.length ≤ Chunk.maxConstants) :
    ∀ (es : List Expr) {place count height : Nat},
    Expr.AllAllowed locals es → Local.Within locals height →
      (Expr.codes locals count height es).Stands chunk depth place count →
    depth (place + Expr.lengths es) = some (height + es.length) →
    depth place = some height ∧ (Expr.codes locals count height es).Flows chunk depth place
  | [], place, count, height, _, _, _, hexit => ⟨hexit, trivial⟩
  | e :: es, place, count, height, hallowed, hwithin, hstands, hexit => by
    obtain ⟨he, hes⟩ := hallowed
    rw [Expr.codes] at hstands ⊢
    obtain ⟨hfirst, hrest⟩ := Fragment.stands_append.mp hstands
    rw [Expr.size_code] at hrest
    rw [Expr.lengths, ← Nat.add_assoc] at hexit
    obtain ⟨hmiddle, hflows₂⟩ := Expr.flowsAll hroom es hes (hwithin.mono (Nat.le_succ _)) hrest
      (depth_congr hexit rfl (by rw [List.length_cons]; omega))
    obtain ⟨hentry, hflows₁⟩ := e.flows hroom he hwithin hfirst hmiddle
    refine ⟨hentry, Fragment.flows_append.mpr ⟨hflows₁, ?_⟩⟩
    rw [Expr.size_code]
    exact hflows₂

end

end

end Lox
