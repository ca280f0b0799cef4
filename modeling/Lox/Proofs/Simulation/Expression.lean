import Lox.Proofs.Simulation.Showing

/-! # The code of expressions

A machine that runs the code of an expression follows its evaluation, and comes to the end of the code with
the value above what was on the stack. -/

namespace Lox

open Lox.Tree (State Library Run)
open Machine (Follows)

/-! ### Code in place -/

/-- A fragment stands in a function, with its constants in the pool. -/
structure Fragment.Laid (chunk : Chunk) (place count : Nat) (f : Fragment) : Prop where
  reads : f.Along (fun offset item => Instruction.read chunk.code offset = .instruction item.instruction) place
  pooled : Constant.Pooled chunk.constants count f.constants

namespace Fragment

variable {chunk : Chunk} {place count height : Nat} {f g : Fragment} {line : UInt32} {i : Instruction}

theorem laid_append : (f ++ g).Laid chunk place count ↔
    f.Laid chunk place count ∧ g.Laid chunk (place + f.size) (count + f.constants.length) := by
  constructor
  · intro h
    obtain ⟨hf, hg⟩ := along_append.mp h.reads
    obtain ⟨hf', hg'⟩ := Constant.pooled_append.mp h.pooled
    exact ⟨⟨hf, hf'⟩, hg, hg'⟩
  · intro ⟨hf, hg⟩
    exact ⟨along_append.mpr ⟨hf.reads, hg.reads⟩, Constant.pooled_append.mpr ⟨hf.pooled, hg.pooled⟩⟩

theorem Laid.single (h : (single line height i).Laid chunk place count) :
    Instruction.read chunk.code place = .instruction i := along_single.mp h.reads

theorem Laid.pool {constant : Constant} (h : (pool constant).Laid chunk place count)
    (hroom : chunk.constants.length ≤ Chunk.maxConstants) :
    chunk.constant? (operandByte count) = some constant :=
  Chunk.constant?_operandByte hroom (Constant.pooled_singleton.mp h.pooled)

end Fragment

/-! ### Names -/

/-- The names of the locals of an evaluation are those that the compiler has in scope, as far as they
    can be mentioned. -/
structure Local.Tracks (locals : List Local) (names : List String) : Prop where
  found : ∀ {name slot loc}, Usable locals name → resolve? name locals = some (slot, loc) →
    slot < 256 ∧ ∃ above below, names = above ++ name :: below ∧ name ∉ above ∧ below.length = slot
  absent : ∀ {name}, resolve? name locals = none → name ∉ names

namespace Stage

variable {E : Stage} {site : Site} {names : List String} {place : Nat} {temps : List Tree.Value} {s : State}
    {m : Machine}
  {fuel : Nat} {v : Tree.Value} {i : Instruction}

/-- The machine follows `call` from the instruction of a call on. -/
def FollowsCalls (E : Stage) (site : Site) (fuel : Nat)
    (call : Tree.Value → List Tree.Value → Run Tree.Value) : Prop :=
  ∀ {names place temps s m} {count : UInt8} {callee : Tree.Value} {arguments : List Tree.Value},
    Instruction.read site.function.chunk.code place = .instruction (.call count) →
    arguments.length = count.toNat → E.Shows site names place (arguments.reverse ++ callee :: temps) s m →
    Follows E.host E.Fits fuel m (call callee arguments s) fun v s' m' =>
      E.Shows site names (place + 2) (v :: temps) s' m'

theorem perform_constant (m : Machine) (place : Nat) {index : UInt8} {constant : Constant}
    (h : site.function.chunk.constant? index = some constant) :
    Machine.perform E.host m (site.frame place) (.constant index) =
      .next (m.push (constant.load (site.id.child index.toNat))) := by
  rw [Machine.perform, Frame.constant?, Site.frame, h]
  rfl

theorem slots_frame (place : Nat) : (site.frame place).slots = site.low.size := rfl

theorem perform_name (place : Nat) {index : UInt8} {name : String}
    (h : site.function.chunk.constant? index = some (.string name)) :
    (site.frame place).name index = .ok name := by
  rw [Frame.name, Site.frame, h]

/-- An instruction that pushes a value. -/
theorem Shows.push_step (h : E.Shows site names place temps s m)
    (hread : Instruction.read site.function.chunk.code place = .instruction i) (hv : v.Known E.library)
    (hperform : ∀ m₁, E.Shows site names (place + i.size) temps s m₁ →
      Machine.perform E.host m₁ (site.frame (place + i.size)) i = .next (m₁.push (v.compiled E.library))) :
    ∃ m', Machine.step E.host m = .next m' ∧ E.Shows site names (place + i.size) (v :: temps) s m' := by
  obtain ⟨m₁, hstep, h₁⟩ := h.fetch hread
  exact ⟨_, hstep.trans (hperform m₁ h₁), h₁.push hv⟩

theorem Shows.follows_push (h : E.Shows site names place temps s m)
    (hread : Instruction.read site.function.chunk.code place = .instruction i) (hv : v.Known E.library)
    (hperform : ∀ m₁, E.Shows site names (place + i.size) temps s m₁ →
      Machine.perform E.host m₁ (site.frame (place + i.size)) i = .next (m₁.push (v.compiled E.library))) :
    Follows E.host E.Fits fuel m (some (.ok v, s)) fun v s' m' =>
      E.Shows site names (place + i.size) (v :: temps) s' m' := by
  obtain ⟨m', hstep, h'⟩ := h.push_step hread hv hperform
  exact .next hstep (.ok h')

theorem Shows.follows_literal (hroom : site.function.chunk.constants.length ≤ Chunk.maxConstants)
    (h : E.Shows site names place temps s m) (value : Literal) {line : UInt32} {count height : Nat}
    (hlaid : (value.code line count height).Laid site.function.chunk place count) :
    Follows E.host E.Fits fuel m (some (.ok value.value, s)) fun v s' m' =>
      E.Shows site names (place + (Expr.literal value line).length) (v :: temps) s' m' := by
  cases value with
  | nil => exact h.follows_push hlaid.single trivial fun _ _ => rfl
  | bool b => cases b <;> exact h.follows_push hlaid.single trivial fun _ _ => rfl
  | number bits | string text =>
    obtain ⟨hpool, hsingle⟩ := Fragment.laid_append.mp hlaid
    have hconstant := hpool.pool hroom
    exact h.follows_push hsingle.single trivial fun m₁ _ => perform_constant m₁ _ hconstant

/-- The value of a variable. -/
theorem Shows.follows_mention (hroom : site.function.chunk.constants.length ≤ Chunk.maxConstants)
    (h : E.Shows site names place temps s m) {locals : List Local} (htracks : Local.Tracks locals names)
    {name : String} (husable : Local.Usable locals name) {line : UInt32} {count height : Nat}
    (hlaid : ((Expr.mention name line).code locals count height).Laid site.function.chunk place count) :
    Follows E.host E.Fits fuel m (Tree.read name s) fun v s' m' =>
      E.Shows site names (place + 2) (v :: temps) s' m' := by
  rw [Expr.code] at hlaid
  split at hlaid <;> rename_i hfound
  · obtain ⟨hslot, above, below, hnames, habove, hbelow⟩ := htracks.found husable hfound
    obtain ⟨v, hlookup, hv, -⟩ := h.getLocal hnames habove
    rw [Tree.read_eq, hlookup]
    refine h.follows_push hlaid.single hv fun m₁ h₁ => ?_
    obtain ⟨v', hlookup', -, hstack⟩ := h₁.getLocal hnames habove
    rw [hlookup] at hlookup'
    cases hlookup'
    rw [Machine.perform, toNat_operandByte hslot, ← hbelow, slots_frame, hstack]
  · obtain ⟨hpool, hsingle⟩ := Fragment.laid_append.mp hlaid
    have hlookup : s.locals.lookup name = none := Tree.lookup_absent (h.names ▸ htracks.absent hfound)
    have hname : ∀ place, (site.frame place).name (operandByte count) = .ok name :=
      fun place => perform_name place (hpool.pool hroom)
    rw [Tree.read_eq, hlookup]
    cases hglobal : s.globals.lookup name with
    | some v =>
      refine h.follows_push hsingle.single (h.fits.known _ (Tree.mem_of_lookup hglobal)) fun m₁ h₁ => ?_
      rewrite [Machine.perform, hname]
      dsimp only
      rewrite [h₁.fits.get?, hglobal]
      rfl
    | none =>
      obtain ⟨m₁, hstep, h₁⟩ := h.fetch hsingle.single
      refine .fault (hstep.trans ?_) h₁.fits
      rewrite [Machine.perform, hname]
      dsimp only
      rewrite [h₁.fits.get?, hglobal]
      rfl

/-- To give a local a value. -/
theorem Shows.follows_setLocal (h : E.Shows site names place (v :: temps) s m) {name : String} {slot : Nat}
    (hslot : slot < 256)
    {above below : List String} (hnames : names = above ++ name :: below) (habove : name ∉ above)
    (hbelow : below.length = slot)
    (hread : Instruction.read site.function.chunk.code place = .instruction (.setLocal (operandByte slot))) :
    Follows E.host E.Fits fuel m (Tree.write name v s) fun _ s' m' =>
      E.Shows site names (place + 2) (v :: temps) s' m' := by
  obtain ⟨m₁, hstep, h₁⟩ := h.fetch hread
  obtain ⟨hsome, hlt, h₂⟩ := h₁.setLocal hnames habove
  rw [Tree.write_eq, if_pos hsome]
  refine .next (hstep.trans ?_) (.ok h₂)
  rw [Machine.perform, toNat_operandByte hslot, ← hbelow]
  show (if site.low.size + below.length < m₁.stack.size then _ else _) = _
  rw [if_pos hlt, h₁.peek]
  rfl

/-- To give a global a value. -/
theorem Shows.follows_setGlobal (h : E.Shows site names place (v :: temps) s m) {name : String}
    (hname : name ∉ names)
    {index : UInt8} (hconstant : site.function.chunk.constant? index = some (.string name))
    (hread : Instruction.read site.function.chunk.code place = .instruction (.setGlobal index)) :
    Follows E.host E.Fits fuel m (Tree.write name v s) fun _ s' m' =>
      E.Shows site names (place + 2) (v :: temps) s' m' := by
  have hlocal : s.locals.lookup name = none := Tree.lookup_absent (h.names ▸ hname)
  obtain ⟨m₁, hstep, h₁⟩ := h.fetch hread
  simp only [Tree.write_eq, hlocal, Option.isSome_none, Bool.false_eq_true, if_false]
  cases hglobal : s.globals.lookup name with
  | none =>
    refine .fault (hstep.trans ?_) h₁.fits
    rewrite [Machine.perform, perform_name _ hconstant, h₁.peek]
    dsimp only
    rw [h₁.fits.unassigned hglobal]
  | some old =>
    obtain ⟨globals, hassign, hfits⟩ := h₁.fits.assign (by rw [hglobal]; rfl) (h₁.temp List.mem_cons_self)
    refine .next (hstep.trans ?_) (.ok ⟨hfits, h₁.frames, h₁.stack, h₁.names, h₁.values⟩)
    rewrite [Machine.perform, perform_name _ hconstant, h₁.peek]
    dsimp only
    rw [hassign]

/-! ### Operators -/

theorem liftExcept_eq (x : Except Fault Tree.Value) (s : State) :
    (liftExcept x : Run Tree.Value) s = some (x, s) := by
  cases x <;> rfl

theorem Shows.follows_unary (h : E.Shows site names place (v :: temps) s m) {f : Value → Except Fault Value}
    {x : Except Fault Tree.Value} (hread : Instruction.read site.function.chunk.code place = .instruction i)
    (hperform : ∀ m₁, Machine.perform E.host m₁ (site.frame (place + i.size)) i = m₁.unary f)
    (hf : f (v.compiled E.library) = x.map (·.compiled E.library))
    (hknown : ∀ w, x = .ok w → w.Known E.library) :
    Follows E.host E.Fits fuel m (some (x, s)) fun w s' m' =>
      E.Shows site names (place + i.size) (w :: temps) s' m' := by
  obtain ⟨m₁, hstep, h₁⟩ := h.fetch hread
  rw [hperform, Machine.unary, h₁.peek] at hstep
  dsimp only at hstep
  rw [hf] at hstep
  cases x with
  | ok w => exact .next hstep (.ok (h₁.replace (hknown w rfl)))
  | error fault => exact .fault hstep h₁.fits

theorem Shows.follows_binary {a b : Tree.Value} (h : E.Shows site names place (b :: a :: temps) s m)
    {f : Value → Value → Except Fault Value} {x : Except Fault Tree.Value}
    (hread : Instruction.read site.function.chunk.code place = .instruction i)
    (hperform : ∀ m₁, Machine.perform E.host m₁ (site.frame (place + i.size)) i = m₁.binary f)
    (hf : f (a.compiled E.library) (b.compiled E.library) = x.map (·.compiled E.library))
    (hknown : ∀ w, x = .ok w → w.Known E.library) :
    Follows E.host E.Fits fuel m (some (x, s)) fun w s' m' =>
      E.Shows site names (place + i.size) (w :: temps) s' m' := by
  obtain ⟨m₁, hstep, h₁⟩ := h.fetch hread
  rw [hperform, Machine.binary, h₁.peek, h₁.peekSecond] at hstep
  dsimp only at hstep
  rw [hf] at hstep
  cases x with
  | ok w => exact .next hstep (.ok (h₁.combine (hknown w rfl)))
  | error fault => exact .fault hstep h₁.fits

/-! ### Jumps -/

theorem Shows.pop_step (h : E.Shows site names place (v :: temps) s m)
    (hread : Instruction.read site.function.chunk.code place = .instruction .pop) :
    ∃ m', Machine.step E.host m = .next m' ∧ E.Shows site names (place + 1) temps s m' := by
  obtain ⟨m₁, hstep, h₁⟩ := h.fetch hread
  refine ⟨_, hstep.trans ?_, h₁.pop⟩
  have hempty : ¬m₁.stack.isEmpty = true := by
    rw [h₁.stack, Array.isEmpty_iff_size_eq_zero, Library.size_stack]
    simp
  rw [Machine.perform, if_neg hempty]

theorem Shows.jump_step (h : E.Shows site names place temps s m) {n : Nat} (hn : n ≤ Compiler.maxJump)
    (hread : Instruction.read site.function.chunk.code place = .instruction (.jump (operandWord n))) :
    ∃ m', Machine.step E.host m = .next m' ∧ E.Shows site names (place + 3 + n) temps s m' := by
  obtain ⟨m₁, hstep, h₁⟩ := h.fetch hread
  refine ⟨_, hstep.trans ?_, h₁.goTo (place + 3 + n)⟩
  rw [Machine.perform, toNat_operandWord hn]
  rfl

theorem Shows.loop_step (h : E.Shows site names place temps s m) {n : Nat} (hn : n ≤ Compiler.maxJump)
    (hback : n ≤ place + 3)
    (hread : Instruction.read site.function.chunk.code place = .instruction (.loop (operandWord n))) :
    ∃ m', Machine.step E.host m = .next m' ∧ E.Shows site names (place + 3 - n) temps s m' := by
  obtain ⟨m₁, hstep, h₁⟩ := h.fetch hread
  refine ⟨_, hstep.trans ?_, h₁.goTo (place + 3 - n)⟩
  rw [Machine.perform, toNat_operandWord hn]
  exact if_pos hback

theorem Shows.jumpIfFalse_step (h : E.Shows site names place (v :: temps) s m) {n : Nat}
    (hn : n ≤ Compiler.maxJump)
    (hread : Instruction.read site.function.chunk.code place = .instruction (.jumpIfFalse (operandWord n))) :
    ∃ m', Machine.step E.host m = .next m' ∧
      E.Shows site names (if v.isFalsy then place + 3 + n else place + 3) (v :: temps) s m' := by
  obtain ⟨m₁, hstep, h₁⟩ := h.fetch hread
  rw [Machine.perform, h₁.peek, toNat_operandWord hn] at hstep
  dsimp only at hstep
  rw [Tree.Value.isFalsy_compiled] at hstep
  refine ⟨_, hstep, ?_⟩
  split
  · exact h₁.goTo (place + 3 + n)
  · exact h₁

end Stage

/-! ### Operators in code -/

namespace BinaryOp

/-- The operator that an operator is or negates. -/
def positive : BinaryOp → BinaryOp
  | notEqual => equal
  | greaterEqual => less
  | lessEqual => greater
  | op => op

theorem isFalsy_bool (b : Bool) : (Tree.Value.bool b).isFalsy = !b := by
  cases b <;> rfl

theorem map_numeric (f : Float → Float → Tree.Value) (g : Tree.Value → Tree.Value) (a b : Tree.Value) :
    (numeric f a b).map g = numeric (fun x y => g (f x y)) a b := by
  unfold numeric
  split <;> rfl

theorem apply_eq (op : BinaryOp) (a b : Tree.Value) : op.apply a b =
    if op.negated then (op.positive.apply a b).map fun v => .bool v.isFalsy else op.positive.apply a b := by
  cases op with
  | notEqual =>
    show Except.ok (Tree.Value.bool (!a.equal b)) = .ok (.bool (Tree.Value.bool (a.equal b)).isFalsy)
    rw [isFalsy_bool]
  | greaterEqual | lessEqual =>
    show numeric _ a b = (numeric _ a b).map _
    rw [map_numeric]
    simp only [isFalsy_bool]
  | equal | greater | less | add | subtract | multiply | divide => rfl

theorem numeric_compiled (L : Library) {f : Float → Float → Tree.Value} {g : Float → Float → Value}
    (h : ∀ x y, (f x y).compiled L = g x y) (a b : Tree.Value) :
    Machine.numeric g (a.compiled L) (b.compiled L) = (numeric f a b).map (·.compiled L) := by
  cases a with
  | number x =>
    cases b with
    | number y => exact congrArg Except.ok (h x y).symm
    | nil | bool | string | function | native => rfl
  | nil | bool | string | function | native => rfl

/-- The machine does what an operator means, or what it negates. -/
theorem exists_perform (op : BinaryOp) (L : Library) : ∃ f,
    (∀ host m frame, Machine.perform host m frame op.instruction = m.binary f) ∧
    ∀ a b : Tree.Value, a.Known L → b.Known L →
      f (a.compiled L) (b.compiled L) = (op.positive.apply a b).map (·.compiled L) := by
  cases op with
  | equal | notEqual =>
    refine ⟨fun a b => .ok (.bool (a.equal b)), fun _ _ _ => rfl, fun a b ha hb => ?_⟩
    dsimp only
    rw [Tree.Value.equal_compiled L ha hb]
    rfl
  | greater | greaterEqual | less | lessEqual | subtract | multiply | divide =>
    refine ⟨_, fun _ _ _ => rfl, fun a b _ _ => ?_⟩
    show Machine.numeric _ _ _ = (numeric _ a b).map _
    refine numeric_compiled L ?_ a b
    exact fun _ _ => rfl
  | add =>
    refine ⟨_, fun _ _ _ => rfl, fun a b _ _ => ?_⟩
    cases a <;> cases b <;> rfl

theorem known_numeric {L : Library} {f : Float → Float → Tree.Value} (hf : ∀ x y, (f x y).Known L)
    {a b v : Tree.Value} (h : numeric f a b = .ok v) : v.Known L := by
  unfold numeric at h
  split at h
  · cases h
    exact hf _ _
  · cases h

theorem known_apply (L : Library) {op : BinaryOp} {a b v : Tree.Value} (h : op.apply a b = .ok v) :
    v.Known L := by
  cases op with
  | equal | notEqual =>
    cases h
    trivial
  | greater | greaterEqual | less | lessEqual | subtract | multiply | divide =>
    rw [apply] at h
    refine known_numeric ?_ h
    exact fun _ _ => trivial
  | add =>
    unfold apply at h
    dsimp only at h
    split at h
    · cases h
      trivial
    · cases h
      trivial
    · cases h

end BinaryOp

theorem UnaryOp.exists_perform (op : UnaryOp) (L : Library) : ∃ f,
    (∀ host m frame, Machine.perform host m frame op.instruction = m.unary f) ∧
    ∀ a : Tree.Value, f (a.compiled L) = (op.apply a).map (·.compiled L) := by
  cases op with
  | negate =>
    refine ⟨_, fun _ _ _ => rfl, fun a => ?_⟩
    cases a <;> rfl
  | logicalNot =>
    refine ⟨fun a => .ok (.bool a.isFalsy), fun _ _ _ => rfl, fun a => ?_⟩
    dsimp only
    rw [Tree.Value.isFalsy_compiled]
    rfl

theorem UnaryOp.known_apply (L : Library) {op : UnaryOp} {a v : Tree.Value} (h : op.apply a = .ok v) :
    v.Known L := by
  cases op with
  | negate =>
    cases a <;> cases h
    trivial
  | logicalNot =>
    cases h
    trivial

/-! ### Expressions -/

section

variable {E : Stage} {site : Site} {names : List String} {fuel : Nat} {locals : List Local}
  {call : Tree.Value → List Tree.Value → Run Tree.Value}

/-- An operator above its operands. -/
theorem BinaryOp.follows (op : BinaryOp) {line : UInt32} {place count height : Nat} {temps : List Tree.Value}
    {a b : Tree.Value}
    {s : State} {m : Machine} (hlaid : (op.code line height).Laid site.function.chunk place count)
    (h : E.Shows site names place (b :: a :: temps) s m) :
    Follows E.host E.Fits fuel m (some (op.apply a b, s)) fun v s' m' =>
      E.Shows site names (place + if op.negated then 2 else 1) (v :: temps) s' m' := by
  obtain ⟨f, hperform, hf⟩ := op.exists_perform E.library
  have hsize : op.instruction.size = 1 := by cases op <;> rfl
  obtain ⟨hfirst, hsecond⟩ := Fragment.laid_append.mp hlaid
  have hknown : ∀ w, op.positive.apply a b = .ok w → w.Known E.library :=
    fun w hw => BinaryOp.known_apply E.library hw
  have hbase : Follows E.host E.Fits fuel m (some (op.positive.apply a b, s)) fun v s' m' =>
      E.Shows site names (place + op.instruction.size) (v :: temps) s' m' :=
    h.follows_binary hfirst.single (fun m₁ => hperform E.host m₁ _)
      (hf a b (h.temp (List.mem_cons_of_mem _ List.mem_cons_self)) (h.temp List.mem_cons_self)) hknown
  rw [hsize] at hbase
  rw [Fragment.size_single, hsize] at hsecond
  rw [op.apply_eq]
  by_cases hnegated : op.negated = true
  · rw [if_pos hnegated] at hsecond ⊢
    rw [if_pos hnegated]
    -- The result of the instruction is negated.
    refine hbase.map fun v m₁ h₁ => ?_
    obtain ⟨g, hperform', hg⟩ := UnaryOp.logicalNot.exists_perform E.library
    refine h₁.follows_unary hsecond.single (fun m₂ => hperform' E.host m₂ _) (hg v) fun w hw => ?_
    cases hw
    trivial
  · rw [if_neg hnegated, if_neg hnegated]
    exact hbase

mutual

theorem Expr.follows (hroom : site.function.chunk.constants.length ≤ Chunk.maxConstants)
    (hcall : E.FollowsCalls site fuel call) (htracks : Local.Tracks locals names) :
    ∀ (e : Expr) {place count height : Nat} {temps : List Tree.Value} {s : State} {m : Machine},
      e.Allowed locals →
    (e.code locals count height).Laid site.function.chunk place count → E.Shows site names place temps s m →
    Follows E.host E.Fits fuel m (e.eval call s) fun v s' m' =>
      E.Shows site names (place + e.length) (v :: temps) s' m'
  | .literal value line, place, count, height, temps, s, m, _, hlaid, h => by
    rw [Expr.eval]
    exact h.follows_literal hroom value hlaid
  | .mention name line, place, count, height, temps, s, m, hallowed, hlaid, h => by
    rw [Expr.eval]
    exact h.follows_mention hroom htracks hallowed hlaid
  | .assign name value, place, count, height, temps, s, m, hallowed, hlaid, h => by
    obtain ⟨husable, hvalue⟩ := hallowed
    rw [Expr.eval, Expr.length]
    rw [Expr.code] at hlaid
    split at hlaid <;> rename_i hfound
    · obtain ⟨hslot, above, below, hnames, habove, hbelow⟩ := htracks.found husable hfound
      obtain ⟨hfirst, hset⟩ := Fragment.laid_append.mp hlaid
      rw [Expr.size_code] at hset
      refine (value.follows hroom hcall htracks hvalue hfirst h).bind fun v s₁ m₁ h₁ => ?_
      exact (h₁.follows_setLocal hslot hnames habove hbelow hset.single).bind fun _ s₂ m₂ h₂ => .ok h₂
    · rw [Fragment.append_assoc] at hlaid
      obtain ⟨hpool, hrest⟩ := Fragment.laid_append.mp hlaid
      obtain ⟨hfirst, hset⟩ := Fragment.laid_append.mp hrest
      rw [Expr.size_code] at hset
      refine (value.follows hroom hcall htracks hvalue hfirst h).bind fun v s₁ m₁ h₁ => ?_
      exact (h₁.follows_setGlobal (htracks.absent hfound) (hpool.pool hroom) hset.single).bind
        fun _ s₂ m₂ h₂ => .ok h₂
  | .group inner _, place, count, height, temps, s, m, hallowed, hlaid, h => by
    rw [Expr.eval]
    rw [Expr.code] at hlaid
    exact inner.follows hroom hcall htracks hallowed hlaid h
  | .unary op operand, place, count, height, temps, s, m, hallowed, hlaid, h => by
    rw [Expr.eval, Expr.length]
    rw [Expr.code] at hlaid
    obtain ⟨hfirst, hop⟩ := Fragment.laid_append.mp hlaid
    rw [Expr.size_code] at hop
    obtain ⟨f, hperform, hf⟩ := op.exists_perform E.library
    have hsize : op.instruction.size = 1 := by cases op <;> rfl
    refine (operand.follows hroom hcall htracks hallowed hfirst h).bind fun a s₁ m₁ h₁ => ?_
    rw [Stage.liftExcept_eq, ← Nat.add_assoc, ← hsize]
    exact h₁.follows_unary hop.single (fun m₂ => hperform E.host m₂ _) (hf a) fun w hw =>
      UnaryOp.known_apply _ hw
  | .binary op left right, place, count, height, temps, s, m, hallowed, hlaid, h => by
    obtain ⟨hleft, hright⟩ := hallowed
    rw [Expr.eval, Expr.length]
    rw [Expr.code] at hlaid
    obtain ⟨hoperands, hop⟩ := Fragment.laid_append.mp hlaid
    obtain ⟨hfirst, hsecond⟩ := Fragment.laid_append.mp hoperands
    simp only [Fragment.size_append, Expr.size_code] at hop hsecond
    refine (left.follows hroom hcall htracks hleft hfirst h).bind fun a s₁ m₁ h₁ => ?_
    refine (right.follows hroom hcall htracks hright hsecond h₁).bind fun b s₂ m₂ h₂ => ?_
    rw [Stage.liftExcept_eq, ← Nat.add_assoc]
    rw [Nat.add_assoc place] at h₂
    exact op.follows hop h₂
  | .and left line right, place, count, height, temps, s, m, hallowed, hlaid, h => by
    obtain ⟨hleft, hright, hjump⟩ := hallowed
    rw [Expr.eval, Expr.length]
    rw [Expr.code] at hlaid
    obtain ⟨hhead, hsecond⟩ := Fragment.laid_append.mp hlaid
    obtain ⟨hhead, hpop⟩ := Fragment.laid_append.mp hhead
    obtain ⟨hfirst, htest⟩ := Fragment.laid_append.mp hhead
    simp only [Fragment.size_append, Fragment.size_single, Expr.size_code, Fragment.constants_append,
      Fragment.constants_single, List.append_nil, Instruction.size_jumpIfFalse,
      Instruction.size_pop] at hsecond hpop htest
    refine (left.follows hroom hcall htracks hleft hfirst h).bind fun a s₁ m₁ h₁ => ?_
    obtain ⟨m₂, hstep, h₂⟩ := h₁.jumpIfFalse_step hjump htest.single
    refine .next hstep ?_
    split <;> rename_i hfalsy
    · rw [if_pos hfalsy] at h₂
      have hplace : place + left.length + 3 + (1 + right.length) =
          place + (left.length + 4 + right.length) := by omega
      rw [hplace] at h₂
      exact .ok h₂
    · rw [if_neg hfalsy] at h₂
      obtain ⟨m₃, hstep', h₃⟩ := h₂.pop_step hpop.single
      refine .next hstep' ?_
      have hplace : place + (left.length + 4 + right.length) =
          place + left.length + 3 + 1 + right.length := by omega
      rw [hplace]
      exact right.follows hroom hcall htracks hright hsecond h₃
  | .or left line right, place, count, height, temps, s, m, hallowed, hlaid, h => by
    obtain ⟨hleft, hright, hjump⟩ := hallowed
    rw [Expr.eval, Expr.length]
    rw [Expr.code] at hlaid
    obtain ⟨hhead, hsecond⟩ := Fragment.laid_append.mp hlaid
    obtain ⟨hhead, hpop⟩ := Fragment.laid_append.mp hhead
    obtain ⟨hhead, hover⟩ := Fragment.laid_append.mp hhead
    obtain ⟨hfirst, htest⟩ := Fragment.laid_append.mp hhead
    simp only [Fragment.size_append, Fragment.size_single, Expr.size_code, Fragment.constants_append,
      Fragment.constants_single, List.append_nil, Instruction.size_jumpIfFalse, Instruction.size_jump,
      Instruction.size_pop] at hsecond hpop hover htest
    refine (left.follows hroom hcall htracks hleft hfirst h).bind fun a s₁ m₁ h₁ => ?_
    obtain ⟨m₂, hstep, h₂⟩ := h₁.jumpIfFalse_step (by decide) htest.single
    refine .next hstep ?_
    split <;> rename_i hfalsy
    · rw [if_pos hfalsy] at h₂
      obtain ⟨m₃, hstep', h₃⟩ := h₂.pop_step hpop.single
      refine .next hstep' ?_
      have hplace : place + (left.length + 7 + right.length) =
          place + left.length + 3 + 3 + 1 + right.length := by omega
      rw [hplace]
      exact right.follows hroom hcall htracks hright hsecond h₃
    · rw [if_neg hfalsy] at h₂
      obtain ⟨m₃, hstep', h₃⟩ := h₂.jump_step hjump hover.single
      have hplace : place + left.length + 3 + 3 + (1 + right.length) =
          place + (left.length + 7 + right.length) := by omega
      rw [hplace] at h₃
      exact .next hstep' (.ok h₃)
  | .call callee arguments line, place, count, height, temps, s, m, hallowed, hlaid, h => by
    obtain ⟨hcallee, harguments, hlength⟩ := hallowed
    rw [Expr.eval, Expr.length]
    rw [Expr.code] at hlaid
    obtain ⟨hhead, hop⟩ := Fragment.laid_append.mp hlaid
    obtain ⟨hfirst, hsecond⟩ := Fragment.laid_append.mp hhead
    simp only [Fragment.size_append, Expr.size_code, Expr.size_codes] at hsecond hop
    refine (callee.follows hroom hcall htracks hcallee hfirst h).bind fun f s₁ m₁ h₁ => ?_
    refine (Expr.followsAll hroom hcall htracks arguments harguments hsecond h₁).bind
      fun values s₂ m₂ hvalues => ?_
    obtain ⟨hcount, h₂⟩ := hvalues
    rw [Nat.add_assoc place] at h₂
    rw [← Nat.add_assoc]
    refine hcall hop.single ?_ h₂
    rw [hcount, toNat_operandByte (by omega)]

theorem Expr.followsAll (hroom : site.function.chunk.constants.length ≤ Chunk.maxConstants)
    (hcall : E.FollowsCalls site fuel call) (htracks : Local.Tracks locals names) :
    ∀ (es : List Expr) {place count height : Nat} {temps : List Tree.Value} {s : State} {m : Machine},
    Expr.AllAllowed locals es → (Expr.codes locals count height es).Laid site.function.chunk place count →
    E.Shows site names place temps s m →
    Follows E.host E.Fits fuel m (Expr.evalAll call es s) fun values s' m' => values.length = es.length ∧
      E.Shows site names (place + Expr.lengths es) (values.reverse ++ temps) s' m'
  | [], place, count, height, temps, s, m, _, _, h => by
    rw [Expr.evalAll]
    exact .ok ⟨rfl, h⟩
  | e :: es, place, count, height, temps, s, m, hallowed, hlaid, h => by
    obtain ⟨he, hes⟩ := hallowed
    rw [Expr.evalAll, Expr.lengths]
    rw [Expr.codes] at hlaid
    obtain ⟨hfirst, hrest⟩ := Fragment.laid_append.mp hlaid
    rw [Expr.size_code] at hrest
    refine (e.follows hroom hcall htracks he hfirst h).bind fun v s₁ m₁ h₁ => ?_
    refine (Expr.followsAll hroom hcall htracks es hes hrest h₁).bind fun values s₂ m₂ hvalues => ?_
    obtain ⟨hlength, h₂⟩ := hvalues
    rw [Nat.add_assoc] at h₂
    refine .ok ⟨by rw [List.length_cons, List.length_cons, hlength], ?_⟩
    rw [List.reverse_cons, List.append_assoc]
    exact h₂

end

end

end Lox
