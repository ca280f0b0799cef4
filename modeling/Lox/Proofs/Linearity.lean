import Mathlib.Data.List.Nodup
import Mathlib.Data.List.Pairwise
import Lox.Proofs.Renaming.Code

/-! # Use of constants

The index of a constant is settled when the constant is added, which may be long before the instruction that
refers to it is written: the name of a global is added before its initial value, whose own constants come
between. So the order in which instructions refer to constants is not the order of the pool. But a fragment
refers to just the constants that it adds, and to each of them once. -/

namespace Lox

/-! ### Fragments -/

namespace Fragment

/-- The indices to which the instructions refer, in the order of the code. -/
def references (fragment : Fragment) : List UInt8 := fragment.items.filterMap (·.instruction.index?)

/-- Each constant of a fragment, whose constants begin at `count`, is referred to once, and no
    other constant is. -/
def Linear (count : Nat) (fragment : Fragment) : Prop :=
  fragment.references.Perm ((List.range' count fragment.constants.length).map operandByte)

variable {a b : Fragment} {line : UInt32} {height count next : Nat} {i : Instruction}

@[simp] theorem references_append (a b : Fragment) : (a ++ b).references = a.references ++ b.references := by
  simp [references]

theorem references_single (h : i.index? = none) : (single line height i).references = [] := by
  simp [references, h]

theorem linear_empty (count : Nat) : Linear count {} := .nil

/-- An instruction that refers to no constant. -/
theorem linear_single (h : i.index? = none) : Linear count (single line height i) := by
  rw [Linear, references_single h]
  exact .nil

theorem Linear.append (h : a.Linear count) (h' : b.Linear next) (hnext : next = count + a.constants.length) :
    (a ++ b).Linear count := by
  subst hnext
  rw [Linear, references_append, constants_append, List.length_append, ← List.range'_append_1, List.map_append]
  exact h.append h'

/-- After a fragment, an instruction that refers to no constant. -/
theorem Linear.single (h : a.Linear count) (hindex : i.index? = none) :
    (a ++ .single line height i).Linear count :=
  h.append (linear_single hindex) rfl

theorem linear_pops (line : UInt32) (height n : Nat) : (pops line height n).Linear count := by
  induction n with
  | zero => exact linear_empty count
  | succ n ih => exact (linear_single rfl).append ih rfl

/-- A constant and, after some code, the instruction that refers to it. -/
theorem Linear.named (h : a.Linear (count + 1)) (constant : Constant) {make : UInt8 → Instruction}
    (hmake : ∀ index, (make index).index? = some index) :
    (pool constant ++ a ++ .single line height (make (operandByte count))).Linear count := by
  have hreferences : (pool constant ++ a ++ .single line height (make (operandByte count))).references =
      a.references ++ [operandByte count] := by
    simp [references, hmake]
  have hlength : (pool constant ++ a ++ .single line height (make (operandByte count))).constants.length =
      a.constants.length + 1 := by
    simp
  -- The constant is the first one of the pool, and the instruction that refers to it the last one of the code.
  rw [Linear, hreferences, hlength, List.range'_succ, List.map_cons]
  exact (List.perm_append_singleton _ _).trans (List.Perm.cons _ h)

/-- A constant and its load. -/
theorem linear_loaded (constant : Constant) :
    (pool constant ++ .single line height (.constant (operandByte count))).Linear count :=
  (linear_empty (count + 1)).named constant fun _ => rfl

end Fragment

open Fragment

/-! ### Expressions -/

theorem Literal.linear (literal : Literal) (line : UInt32) (count height : Nat) :
    (literal.code line count height).Linear count := by
  cases literal with
  | nil => exact linear_single rfl
  | bool b => cases b <;> exact linear_single rfl
  | number bits => exact linear_loaded (.number bits)
  | string text => exact linear_loaded (.string text)

theorem BinaryOp.linear (op : BinaryOp) (line : UInt32) (count height : Nat) :
    (op.code line height).Linear count := by
  unfold BinaryOp.code
  refine (linear_single (by cases op <;> rfl)).append ?_ rfl
  split
  · exact linear_single rfl
  · exact linear_empty count

mutual

theorem Expr.linear : ∀ (e : Expr) (locals : List Local) (count height : Nat),
    (e.code locals count height).Linear count
  | .literal value line, locals, count, height => value.linear line count height
  | .mention name line, locals, count, height => by
    rw [Expr.code]
    split
    · exact linear_single rfl
    · exact (linear_empty (count + 1)).named _ fun _ => rfl
  | .assign name value, locals, count, height => by
    rw [Expr.code]
    split
    · exact (value.linear locals count height).single rfl
    · exact (value.linear locals (count + 1) height).named _ fun _ => rfl
  | .group inner _, locals, count, height => inner.linear locals count height
  | .unary op operand, locals, count, height =>
    (operand.linear locals count height).single (by cases op <;> rfl)
  | .binary op left right, locals, count, height =>
    ((left.linear locals count height).append (right.linear locals _ _) rfl).append (op.linear _ _ _) rfl
  | .and left line right, locals, count, height => by
    have hleft := left.linear locals count height
    exact ((hleft.single rfl).single rfl).append (right.linear locals _ _) (by simp)
  | .or left line right, locals, count, height => by
    have hleft := left.linear locals count height
    exact (((hleft.single rfl).single rfl).single rfl).append (right.linear locals _ _) (by simp)
  | .call callee arguments line, locals, count, height =>
    ((callee.linear locals count height).append (Expr.linearAll arguments locals _ _) rfl).single rfl

theorem Expr.linearAll : ∀ (es : List Expr) (locals : List Local) (count height : Nat),
    (Expr.codes locals count height es).Linear count
  | [], _, count, _ => linear_empty count
  | e :: es, locals, count, height => (e.linear locals count height).append (Expr.linearAll es locals _ _) rfl

end

/-! ### Statements and routines -/

theorem Variable.linear (scope : Scope) (v : Variable) (count : Nat) : (v.code scope count).Linear count := by
  have hvalue : ∀ locals count height, (v.valueCode locals count height).Linear count := by
    intro locals count height
    unfold Variable.valueCode
    split
    · exact linear_single rfl
    · exact Expr.linear _ locals count height
  unfold Variable.code
  split
  · exact (hvalue scope.locals (count + 1) scope.height).named _ fun _ => rfl
  · exact hvalue _ count scope.height

theorem Initializer.linear (scope : Scope) (i : Initializer) (count : Nat) :
    (i.code scope count).Linear count := by
  cases i with
  | empty => exact linear_empty count
  | var v => exact v.linear scope count
  | expression value line => exact (value.linear scope.locals count scope.height).single rfl

namespace Stmt

theorem linear_conditionCode (locals : List Local) (count height : Nat) (line : UInt32) (rest : Nat)
    (condition : Option Expr) : (conditionCode locals count height line rest condition).Linear count := by
  cases condition with
  | none => exact linear_empty count
  | some e => exact ((e.linear locals count height).single rfl).single rfl

theorem linear_incrementCode (locals : List Local) (count height : Nat) (line : UInt32) (length : Nat)
    (increment : Option (Expr × UInt32)) :
    (incrementCode locals count height line length increment).Linear count := by
  cases increment with
  | none => exact linear_empty count
  | some clause =>
    have hjump : Linear count (.single line height (.jump (operandWord (clause.1.length + 4)))) :=
      linear_single rfl
    exact ((hjump.append (clause.1.linear locals count height) rfl).single rfl).single rfl

theorem linear_exitCode (line : UInt32) (count height : Nat) (condition : Option Expr) :
    (exitCode line height condition).Linear count := by
  cases condition with
  | none => exact linear_empty count
  | some e => exact linear_single rfl

end Stmt

mutual

theorem Stmt.linear : ∀ (s : Stmt) (scope : Scope) (count : Nat), (s.code scope count).Linear count
  | .print value line, scope, count | .expression value line, scope, count =>
    (value.linear scope.locals count scope.height).single rfl
  | .ret none _, _, _ => (linear_single rfl).single rfl
  | .ret (some value) line, scope, count => (value.linear scope.locals count scope.height).single rfl
  | .ifElse condition line thenPart none, scope, count => by
    have hcondition := condition.linear scope.locals count scope.height
    exact ((((hcondition.single rfl).single rfl).append (thenPart.linear scope _) (by simp)).single
        rfl).single rfl
  | .ifElse condition line thenPart (some elsePart), scope, count => by
    have hcondition := condition.linear scope.locals count scope.height
    refine (((((hcondition.single rfl).single rfl).append (thenPart.linear scope _) ?_).single rfl).single
        rfl).append
      (elsePart.linear scope _) ?_
    · simp
    · simp [Nat.add_assoc]
  | .whileLoop condition line body, scope, count => by
    have hcondition := condition.linear scope.locals count scope.height
    exact ((((hcondition.single rfl).single rfl).append (body.linear scope _) (by simp)).single rfl).single rfl
  | .forLoop initializer condition line increment body, scope, count => by
    refine Linear.append (Linear.append (Linear.single (Linear.append ?_ (body.linear _ _) ?_) rfl)
      (Stmt.linear_exitCode _ _ _ condition) rfl) (linear_pops _ _ _) rfl
    · exact ((initializer.linear scope.inner count).append (Stmt.linear_conditionCode _ _ _ line _ condition)
          rfl).append
        (Stmt.linear_incrementCode _ _ _ line _ increment) (by simp [Nat.add_assoc])
    · simp [Nat.add_assoc]
  | .block declarations line, scope, count =>
    (Decl.linearAll declarations scope.inner count).append (linear_pops _ _ _) rfl

theorem Decl.linear : ∀ (d : Decl) (scope : Scope) (count : Nat), (d.code scope count).Linear count
  | .var v, scope, count => v.linear scope count
  | .function name r, scope, count => by
    rw [Decl.code]
    split
    · rw [append_assoc (pool _) (pool _)]
      exact (linear_loaded (.function (r.function (some name)))).named _ fun _ => rfl
    · exact linear_loaded _
  | .statement s, scope, count => s.linear scope count

theorem Decl.linearAll : ∀ (ds : List Decl) (scope : Scope) (count : Nat),
    (Decl.codes scope count ds).Linear count
  | [], _, count => linear_empty count
  | d :: ds, scope, count => (d.linear scope count).append (Decl.linearAll ds _ _) rfl

end

theorem Routine.linear (name : Option String) : ∀ r : Routine, (r.code name).Linear 0
  | ⟨_, _, body, _⟩ => ((Decl.linearAll body _ 0).single rfl).single rfl

/-! ### Functions -/

/-- An instruction refers to the constant with the given number. -/
def Instruction.RefersTo (i : Instruction) (k : Nat) : Prop := ∃ index ∈ i.index?, index.toNat = k

theorem Item.filterMap_row (offset : Nat) (items : List Item) :
    (Item.row offset items).filterMap (·.2.index?) = items.filterMap (·.instruction.index?) := by
  have hrow := congrArg (List.filterMap Instruction.index?) (Item.map_snd_row offset items)
  rwa [List.filterMap_map, List.filterMap_map] at hrow

/-- If no value is found twice in a list, each is found in one entry. -/
theorem eq_of_nodup_filterMap {α β : Type} {f : α → Option β} {l : List α} (h : (l.filterMap f).Nodup)
    {x y : α} {value : β}
    (hx : x ∈ l) (hy : y ∈ l) (hfx : f x = some value) (hfy : f y = some value) : x = y := by
  have hsymm : Std.Symm fun a b : α => ∀ u, f a = some u → ∀ v, f b = some v → u ≠ v :=
    ⟨fun _ _ hab v hv u hu => (hab u hu v hv).symm⟩
  by_contra hne
  exact (List.pairwise_filterMap.mp h).forall hx hy hne value hfx value hfy rfl

namespace Chunk

/-- The constants of a chunk with these instructions are used one by one. -/
structure UsesOnce (chunk : Chunk) (found : Array (Nat × Instruction)) : Prop where
  /-- An instruction refers to nothing but constants of the pool. -/
  valid : ∀ offset i k, (offset, i) ∈ found → i.RefersTo k → k < chunk.constants.length
  /-- Each constant is referred to by an instruction and by no other one, -/
  once : ∀ k < chunk.constants.length, ∃! entry, entry ∈ found ∧ entry.2.RefersTo k
  /-- which loads it if it is a function. -/
  loaded : ∀ k f, chunk.constants[k]? = some (.function f) →
    ∃! offset, ∃ index : UInt8, (offset, .constant index) ∈ found ∧ index.toNat = k

/-- What is referred to and is no string is loaded. -/
theorem loads_of_refersTo {chunk : Chunk} {offset k : Nat} {i : Instruction} {f : Function}
    (hflaw : chunk.constantFlaw? offset i = none) (hrefers : i.RefersTo k)
    (hconstant : chunk.constants[k]? = some (.function f)) : ∃ index : UInt8, i = .constant index ∧
    index.toNat = k := by
  obtain ⟨index, hindex, rfl⟩ := hrefers
  cases i with
  | constant other =>
    cases hindex
    exact ⟨index, rfl, rfl⟩
  | getGlobal other | defineGlobal other | setGlobal other =>
    cases hindex
    rw [constantFlaw?, constant?, hconstant] at hflaw
    cases hflaw
  | _ => cases hindex

end Chunk

namespace Fragment

variable {code : Fragment} {f : Function}

theorem Linear.toNat (h : code.Linear 0) (hroom : code.constants.length ≤ Chunk.maxConstants) :
    (code.references.map UInt8.toNat).Perm (List.range code.constants.length) := by
  have hbytes : ((List.range' 0 code.constants.length).map operandByte).map UInt8.toNat =
      List.range code.constants.length := by
    rw [List.map_map, ← List.range_eq_range']
    refine (List.map_congr_left fun k hk => ?_).trans (List.map_id _)
    exact toNat_operandByte (Nat.lt_of_lt_of_le (List.mem_range.mp hk) hroom)
  rw [← hbytes]
  exact h.map UInt8.toNat

/-- A function that is made by code which is linear uses its constants one by one. -/
theorem Makes.usesOnce (h : code.Makes f) (hlinear : code.Linear 0) :
    f.chunk.UsesOnce (Item.row 0 code.items).toArray := by
  have hconstants : f.chunk.constants = code.constants := by rw [h.chunk]
  have hperm := hlinear.toNat (hconstants ▸ h.room)
  rw [← hconstants, references, ← Item.filterMap_row 0] at hperm
  have hnodup := List.Nodup.of_map UInt8.toNat (hperm.nodup_iff.mpr List.nodup_range)
  have hfound {offset k : Nat} {i : Instruction} (hi : (offset, i) ∈ Item.row 0 code.items)
      (hk : i.RefersTo k) :
      k < f.chunk.constants.length := by
    obtain ⟨index, hindex, rfl⟩ := hk
    exact List.mem_range.mp (hperm.mem_iff.mp (List.mem_map_of_mem (List.mem_filterMap.mpr ⟨_, hi, hindex⟩)))
  have hunique {x y : Nat × Instruction} {k : Nat} (hx : x ∈ Item.row 0 code.items)
      (hy : y ∈ Item.row 0 code.items)
      (hkx : x.2.RefersTo k) (hky : y.2.RefersTo k) : x = y := by
    obtain ⟨index, hindex, rfl⟩ := hkx
    obtain ⟨other, hother, heq⟩ := hky
    obtain rfl := UInt8.toNat_inj.mp heq
    exact eq_of_nodup_filterMap hnodup hx hy hindex hother
  have honce {k : Nat} (hk : k < f.chunk.constants.length) :
      ∃ entry ∈ Item.row 0 code.items, entry.2.RefersTo k := by
    obtain ⟨index, hindex, rfl⟩ := List.mem_map.mp (hperm.mem_iff.mpr (List.mem_range.mpr hk))
    obtain ⟨entry, hentry, hrefers⟩ := List.mem_filterMap.mp hindex
    exact ⟨entry, hentry, index, hrefers, rfl⟩
  refine ⟨fun offset i k hi => hfound (List.mem_toArray.mp hi), fun k hk => ?_, fun k g hg => ?_⟩
  · obtain ⟨entry, hentry, hrefers⟩ := honce hk
    refine ⟨entry, ⟨List.mem_toArray.mpr hentry, hrefers⟩, ?_⟩
    rintro other ⟨hother, hrefers'⟩
    exact hunique (List.mem_toArray.mp hother) hentry hrefers' hrefers
  · obtain ⟨⟨offset, i⟩, hentry, hrefers⟩ := honce (List.getElem?_eq_some_iff.mp hg).1
    obtain ⟨index, rfl, rfl⟩ := Chunk.loads_of_refersTo (h.fills.mem hentry).2 hrefers hg
    refine ⟨offset, ⟨index, List.mem_toArray.mpr hentry, rfl⟩, ?_⟩
    rintro other ⟨index', hother, heq⟩
    exact congrArg Prod.fst (hunique (List.mem_toArray.mp hother) hentry ⟨index', rfl, heq⟩ hrefers)

end Fragment

/-- In a compiled script, and in every function inside it, each constant is used by one instruction and by no
    other one, and there is nothing else that an instruction refers to: no constant is without use, none is
    shared, and every function inside is loaded at one place. -/
theorem compile_usesOnce {source : String} {script : Function} (h : compile source = .ok script) :
    ∀ f ∈ script.all, ∃ found, f.chunk.instructions = .ok found ∧ f.chunk.UsesOnce found := by
  intro f hf
  have hcompiled : f.Compiled := ⟨source, script, h, hf⟩
  obtain ⟨name, r, hlegal, rfl⟩ := hcompiled.written
  have hmakes := hlegal.makes_code
  exact ⟨_, Chunk.instructions_eq_ok.mpr hmakes.fills, hmakes.usesOnce (r.linear name)⟩

/-- A global whose value is the same text as its name, an assignment, and functions inside each other. -/
theorem compile_usesOnce_nested : ∃ script,
    compile "var a = \"a\"; fun f() \x7b a = 1; fun g() \x7b\x7d \x7d f();" = .ok script ∧
      script.all.map (·.chunk.constants.length) = [5, 3, 0] ∧
      ∀ f ∈ script.all, ∃ found, f.chunk.instructions = .ok found ∧ f.chunk.UsesOnce found := by
  have hcompiles :
      ((compile "var a = \"a\"; fun f() \x7b a = 1; fun g() \x7b\x7d \x7d f();").toOption.any fun script =>
      script.all.map (·.chunk.constants.length) = [5, 3, 0]) = true := by decide +kernel
  obtain ⟨script, hcompile, hlengths⟩ := exists_ok_of_any hcompiles
  exact ⟨script, hcompile, of_decide_eq_true hlengths, compile_usesOnce hcompile⟩

end Lox
