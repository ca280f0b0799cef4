import Lox.Proofs.Compilation.Lockstep
import Lox.Proofs.Renaming.Tree
import Lox.Proofs.Verification.Compiled

/-! # The code of programs with other names

A constant of a function is the name of a global if an instruction takes it for one, and else a literal or a
function. Both are never mixed up in compiled code: a constant is added either for one instruction that takes
it as a name, or for one that loads it. So if a program spells its names differently, its function has the
same code, and just its names change. -/

namespace Lox

/-- The constant that an instruction takes for the name of a global. -/
def Instruction.name? : Instruction → Option UInt8
  | .getGlobal index | .setGlobal index | .defineGlobal index => some index
  | _ => none

/-- Whether an instruction of the chunk takes the constant at an index for the name of a global. -/
def Chunk.isName (chunk : Chunk) (index : Nat) : Bool :=
  match chunk.instructions with
  | .ok found => found.any fun entry => entry.2.name?.any (·.toNat = index)
  | .error _ => false

section

variable (word : String → String)

mutual

/-- A function with its name, the names of globals in it and those in the functions inside
    spelled differently. -/
def Function.respell : Function → Function
  | ⟨arity, chunk, name⟩ => ⟨arity, chunk.respell, name.map word⟩

/-- A chunk with the names of globals and those in its functions spelled differently. -/
def Chunk.respell : Chunk → Chunk
  | ⟨code, lines, constants⟩ =>
    ⟨code, lines, Constant.respellFrom (Chunk.isName ⟨code, lines, constants⟩) 0 constants⟩

/-- Constants from an index on, with those that are names spelled differently. -/
def Constant.respellFrom (isName : Nat → Bool) : Nat → List Constant → List Constant
  | _, [] => []
  | index, constant :: constants =>
    constant.respell (isName index) :: Constant.respellFrom isName (index + 1) constants

/-- A constant that may be a name, or a function, spelled differently. -/
def Constant.respell (isName : Bool) : Constant → Constant
  | .string text => .string (if isName then word text else text)
  | .function f => .function f.respell
  | constant => constant

end

end

variable {word : String → String}

theorem Constant.getElem?_respellFrom (isName : Nat → Bool) (index : Nat) (constants : List Constant)
    (k : Nat) :
    (Constant.respellFrom word isName index constants)[k]? =
      constants[k]?.map (Constant.respell word (isName (index + k))) := by
  induction constants generalizing index k with
  | nil => rfl
  | cons constant constants ih =>
    rw [Constant.respellFrom]
    cases k with
    | zero => rfl
    | succ k => rw [List.getElem?_cons_succ, List.getElem?_cons_succ, ih, Nat.add_assoc, Nat.add_comm 1]

/-! ### Fragments -/

namespace Fragment

/-- A fragment is another one, whose constants begin at `count`, with names spelled differently; `names`
    tells which of the constants are names. Those are taken for names by instructions of the fragment, and
    the others are not. -/
structure RespellsAs (word : String → String) (count : Nat) (names : List Bool) (a b : Fragment) : Prop where
  items : b.items = a.items
  length : names.length = a.constants.length
  constants : b.constants = List.zipWith (Constant.respell word) names a.constants
  named : ∀ item ∈ a.items, ∀ index ∈ item.instruction.name?, ∃ k, names[k]? = some true ∧
    index = operandByte (count + k)
  taken : ∀ k, names[k]? = some true → ∃ item ∈ a.items, item.instruction.name? = some (operandByte (count + k))
  loaded : ∀ item ∈ a.items, ∀ index, item.instruction = .constant index →
    ∃ k, names[k]? = some false ∧ index = operandByte (count + k)

/-- A fragment is another one, whose constants begin at `count`, with names spelled differently. -/
def Respells (word : String → String) (count : Nat) (a b : Fragment) : Prop :=
  ∃ names, RespellsAs word count names a b

variable {a b c d : Fragment} {line : UInt32} {height count next : Nat} {i : Instruction}

theorem Respells.length (h : Respells word count a b) : b.constants.length = a.constants.length := by
  obtain ⟨names, h⟩ := h
  rw [h.constants, List.length_zipWith, h.length, Nat.min_self]

theorem respells_empty : Respells word count {} {} :=
  ⟨[], rfl, rfl, rfl, fun _ h => absurd h List.not_mem_nil, (fun _ h => by cases h),
    fun _ h => absurd h List.not_mem_nil⟩

/-- An instruction that refers to no constant. -/
theorem respells_single (h : i.index? = none) :
    Respells word count (single line height i) (single line height i) := by
  refine ⟨[], rfl, rfl, rfl, ?_, (fun _ h => by cases h), ?_⟩
  · intro item hitem index hindex
    have hname : i.name? = none := by
      cases i with
      | constant | getGlobal | setGlobal | defineGlobal => cases h
      | _ => rfl
    rw [List.mem_singleton.mp hitem, hname] at hindex
    cases hindex
  · intro item hitem index hindex
    rw [List.mem_singleton.mp hitem] at hindex
    change i = .constant index at hindex
    rw [hindex] at h
    cases h

theorem Respells.append (h : Respells word count a b) (h' : Respells word next c d)
    (hnext : next = count + a.constants.length) : Respells word count (a ++ c) (b ++ d) := by
  obtain ⟨xs, h⟩ := h
  obtain ⟨ys, h'⟩ := h'
  have hright : ∀ k, count + (xs.length + k) = next + k := fun k => by rw [hnext, ← h.length, Nat.add_assoc]
  refine ⟨xs ++ ys, ?_, ?_, ?_, ?_, ?_, ?_⟩
  · rw [items_append, items_append, h.items, h'.items]
  · rw [List.length_append, constants_append, List.length_append, h.length, h'.length]
  · rw [constants_append, constants_append, h.constants, h'.constants, List.zipWith_append h.length]
  · intro item hitem index hindex
    rcases List.mem_append.mp hitem with hitem | hitem
    · obtain ⟨k, hk, heq⟩ := h.named item hitem index hindex
      exact ⟨k, List.getElem?_append_left (List.getElem?_eq_some_iff.mp hk).1 ▸ hk, heq⟩
    · obtain ⟨k, hk, heq⟩ := h'.named item hitem index hindex
      refine ⟨xs.length + k, ?_, by rw [hright, heq]⟩
      rw [List.getElem?_append_right (Nat.le_add_right _ _), Nat.add_sub_cancel_left, hk]
  · intro k hk
    by_cases hlt : k < xs.length
    · rw [List.getElem?_append_left hlt] at hk
      obtain ⟨item, hitem, hname⟩ := h.taken k hk
      exact ⟨item, List.mem_append_left _ hitem, hname⟩
    · obtain ⟨k, rfl⟩ := Nat.exists_eq_add_of_le (Nat.le_of_not_lt hlt)
      rw [List.getElem?_append_right (Nat.le_add_right _ _), Nat.add_sub_cancel_left] at hk
      obtain ⟨item, hitem, hname⟩ := h'.taken k hk
      exact ⟨item, List.mem_append_right _ hitem, by rw [hright, hname]⟩
  · intro item hitem index hindex
    rcases List.mem_append.mp hitem with hitem | hitem
    · obtain ⟨k, hk, heq⟩ := h.loaded item hitem index hindex
      exact ⟨k, List.getElem?_append_left (List.getElem?_eq_some_iff.mp hk).1 ▸ hk, heq⟩
    · obtain ⟨k, hk, heq⟩ := h'.loaded item hitem index hindex
      refine ⟨xs.length + k, ?_, by rw [hright, heq]⟩
      rw [List.getElem?_append_right (Nat.le_add_right _ _), Nat.add_sub_cancel_left, hk]

/-- After a fragment, an instruction that refers to no constant. -/
theorem Respells.single (h : Respells word count a b) (hindex : i.index? = none) :
    Respells word count (a ++ .single line height i) (b ++ .single line height i) :=
  h.append (respells_single hindex) rfl

theorem respells_pops (line : UInt32) (height n : Nat) :
    Respells word count (pops line height n) (pops line height n) := by
  induction n with
  | zero => exact respells_empty
  | succ n ih => exact (respells_single rfl).append ih rfl

/-- A constant that is no name, and its load. -/
theorem respells_loaded (constant : Constant) : Respells word count
    (pool constant ++ .single line height (.constant (operandByte count)))
    (pool (constant.respell word false) ++ .single line height (.constant (operandByte count))) := by
  refine ⟨[false], rfl, rfl, rfl, ?_, ?_, ?_⟩
  · intro item hitem index hindex
    rw [List.mem_singleton.mp hitem] at hindex
    cases hindex
  · intro k hk
    cases k <;> cases hk
  · intro item hitem index hindex
    rw [List.mem_singleton.mp hitem] at hindex
    cases hindex
    exact ⟨0, rfl, rfl⟩

/-- A name and, after some code, the instruction that takes it. -/
theorem Respells.named (h : Respells word (count + 1) a b) (name : String) {make : UInt8 → Instruction}
    (hmake : ∀ index, (make index).name? = some index) : Respells word count
      (pool (.string name) ++ a ++ .single line height (make (operandByte count)))
      (pool (.string (word name)) ++ b ++ .single line height (make (operandByte count))) := by
  obtain ⟨names, h⟩ := h
  have hload : ∀ index other, make index ≠ .constant other := fun index other heq => by
    have hname := hmake index
    rw [heq] at hname
    cases hname
  have hshift : ∀ k, count + (k + 1) = count + 1 + k := fun k => by omega
  refine ⟨true :: names, ?_, ?_, ?_, ?_, ?_, ?_⟩
  · simp [h.items]
  · simp [h.length]
  · simp [h.constants, Constant.respell]
  · intro item hitem index hindex
    rcases List.mem_append.mp hitem with hitem | hitem
    · obtain ⟨k, hk, heq⟩ := h.named item hitem index hindex
      exact ⟨k + 1, hk, by rw [hshift, heq]⟩
    · rw [List.mem_singleton.mp hitem] at hindex
      exact ⟨0, rfl, (Option.some.inj ((hmake _).symm.trans hindex)).symm⟩
  · intro k hk
    cases k with
    | zero => exact ⟨_, List.mem_append_right _ (List.mem_singleton_self _), hmake _⟩
    | succ k =>
      obtain ⟨item, hitem, hname⟩ := h.taken k hk
      exact ⟨item, List.mem_append_left _ hitem, by rw [hshift, hname]⟩
  · intro item hitem index hindex
    rcases List.mem_append.mp hitem with hitem | hitem
    · obtain ⟨k, hk, heq⟩ := h.loaded item hitem index hindex
      exact ⟨k + 1, hk, by rw [hshift, heq]⟩
    · rw [List.mem_singleton.mp hitem] at hindex
      exact absurd hindex (hload _ _)

end Fragment

open Fragment

/-! ### Expressions -/

theorem Literal.respells (literal : Literal) (line : UInt32) (count height : Nat) :
    Respells word count (literal.code line count height) (literal.code line count height) := by
  cases literal with
  | nil => exact respells_single rfl
  | bool b => cases b <;> exact respells_single rfl
  | number bits => exact respells_loaded (.number bits)
  | string text => exact respells_loaded (.string text)

theorem BinaryOp.respells (op : BinaryOp) (line : UInt32) (count height : Nat) :
    Respells word count (op.code line height) (op.code line height) := by
  unfold BinaryOp.code
  refine (respells_single (by cases op <;> rfl)).append ?_ rfl
  split
  · exact respells_single rfl
  · exact respells_empty

mutual

theorem Expr.respells (hword : ∀ {x y : String}, word x = word y → x = y) : ∀ (e : Expr) (locals : List Local)
    (count height : Nat), Respells word count
    (e.code locals count height) ((e.respell word).code (locals.map (Local.respell word)) count height)
  | .literal value line, locals, count, height => value.respells line count height
  | .mention name line, locals, count, height => by
    rw [Expr.respell, Expr.code, Expr.code, Local.resolve?_respell hword]
    cases Local.resolve? name locals with
    | none => exact respells_empty.named name fun _ => rfl
    | some found => exact respells_single rfl
  | .assign name value, locals, count, height => by
    rw [Expr.respell, Expr.code, Expr.code, Local.resolve?_respell hword, Expr.endLine_respell]
    cases Local.resolve? name locals with
    | none => exact (value.respells hword locals (count + 1) height).named name fun _ => rfl
    | some found => exact (value.respells hword locals count height).single rfl
  | .group inner _, locals, count, height => inner.respells hword locals count height
  | .unary op operand, locals, count, height => by
    rw [Expr.respell, Expr.code, Expr.code, Expr.endLine_respell]
    exact (operand.respells hword locals count height).single (by cases op <;> rfl)
  | .binary op left right, locals, count, height => by
    have hleft := left.respells hword locals count height
    simp only [Expr.respell, Expr.code, Expr.endLine_respell, hleft.length]
    exact (hleft.append (right.respells hword locals _ _) rfl).append (op.respells _ _ _) rfl
  | .and left line right, locals, count, height => by
    have hleft := left.respells hword locals count height
    simp only [Expr.respell, Expr.code, Expr.length_respell, hleft.length]
    exact ((hleft.single rfl).single rfl).append (right.respells hword locals _ _) (by simp)
  | .or left line right, locals, count, height => by
    have hleft := left.respells hword locals count height
    simp only [Expr.respell, Expr.code, Expr.length_respell, hleft.length]
    exact (((hleft.single rfl).single rfl).single rfl).append (right.respells hword locals _ _) (by simp)
  | .call callee arguments line, locals, count, height => by
    have hcallee := callee.respells hword locals count height
    simp only [Expr.respell, Expr.code, Expr.length_respellAll, hcallee.length]
    exact (hcallee.append (Expr.respellsAll hword arguments locals _ _) rfl).single rfl

theorem Expr.respellsAll (hword : ∀ {x y : String}, word x = word y → x = y) : ∀ (es : List Expr)
    (locals : List Local) (count height : Nat), Respells word count
    (Expr.codes locals count height es)
    (Expr.codes (locals.map (Local.respell word)) count height (Expr.respellAll word es))
  | [], locals, count, height => respells_empty
  | e :: es, locals, count, height => by
    have he := e.respells hword locals count height
    simp only [Expr.respellAll, Expr.codes, he.length]
    exact he.append (Expr.respellsAll hword es locals _ _) rfl

end

/-! ### Scopes -/

namespace Scope

/-- A scope with its locals spelled differently. -/
def respell (word : String → String) (scope : Scope) : Scope :=
  { scope with locals := scope.locals.map (Local.respell word) }

variable (scope : Scope)

theorem locals_respell : (scope.respell word).locals = scope.locals.map (Local.respell word) := rfl

theorem depth_respell : (scope.respell word).depth = scope.depth := rfl

theorem height_respell : (scope.respell word).height = scope.height := List.length_map _

theorem after_respell (name : Option String) :
    (scope.respell word).after (name.map word) = (scope.after name).respell word := by
  cases name with
  | none => rfl
  | some name =>
    change (scope.respell word).declare (word name) = (scope.declare name).respell word
    unfold declare
    rw [depth_respell]
    split <;> rfl

theorem afterAll_respell (ds : List Decl) :
    (scope.respell word).afterAll (Decl.respellAll word ds) = (scope.afterAll ds).respell word := by
  induction ds generalizing scope with
  | nil => rfl
  | cons d ds ih => rw [Decl.respellAll, afterAll, afterAll, Decl.name?_respell, after_respell, ih]

theorem ofRoutine_respell (hempty : word "" = "") (name : Option String) (parameters : List String) :
    ofRoutine (name.map word) (parameters.map word) = (ofRoutine name parameters).respell word := by
  cases name with
  | none => simp [ofRoutine, respell, Local.respell, hempty]
  | some name => simp [ofRoutine, respell, Local.respell, hempty, Function.comp_def]

end Scope

/-! ### Statements -/

section

variable (hword : ∀ {x y : String}, word x = word y → x = y)

include hword

theorem Variable.respells (scope : Scope) (v : Variable) (count : Nat) :
    Respells word count (v.code scope count) ((v.respell word).code (scope.respell word) count) := by
  have hvalue : ∀ locals count height, Respells word count (v.valueCode locals count height)
      ((v.respell word).valueCode (locals.map (Local.respell word)) count height) := by
    intro locals count height
    obtain ⟨name, nameLine, value, line⟩ := v
    cases value with
    | none => exact respells_single rfl
    | some e => exact e.respells hword locals count height
  unfold Variable.code
  rw [scope.height_respell, scope.depth_respell]
  split
  · exact (hvalue scope.locals (count + 1) scope.height).named v.name fun _ => rfl
  · exact hvalue (⟨v.name, none⟩ :: scope.locals) count scope.height

theorem Initializer.respells (scope : Scope) (i : Initializer) (count : Nat) :
    Respells word count (i.code scope count) ((i.respell word).code (scope.respell word) count) := by
  cases i with
  | empty => exact respells_empty
  | var v => exact v.respells hword scope count
  | expression value line =>
    rw [Initializer.respell, Initializer.code, Initializer.code, scope.height_respell]
    exact (value.respells hword scope.locals count scope.height).single rfl

theorem Stmt.respellsCondition (locals : List Local) (count height : Nat) (line : UInt32) (rest : Nat)
    (condition : Option Expr) : Respells word count (conditionCode locals count height line rest condition)
      (conditionCode (locals.map (Local.respell word)) count height line rest
        (condition.map (Expr.respell word))) := by
  cases condition with
  | none => exact respells_empty
  | some e => exact ((e.respells hword locals count height).single rfl).single rfl

theorem Stmt.respellsIncrement (locals : List Local) (count height : Nat) (line : UInt32) (length : Nat)
    (increment : Option (Expr × UInt32)) :
    Respells word count (incrementCode locals count height line length increment)
      (incrementCode (locals.map (Local.respell word)) count height line length
        (increment.map fun clause => (clause.1.respell word, clause.2))) := by
  cases increment with
  | none => exact respells_empty
  | some clause =>
    obtain ⟨e, close⟩ := clause
    simp only [Option.map_some, incrementCode, Expr.length_respell, Expr.endLine_respell]
    have hjump : Respells word count (Fragment.single line height (.jump (operandWord (e.length + 4)))) _ :=
      respells_single rfl
    exact ((hjump.append (e.respells hword locals count height) rfl).single rfl).single rfl

end

theorem Stmt.respellsExit (line : UInt32) (count height : Nat) (condition : Option Expr) :
    Respells word count (exitCode line height condition)
      (exitCode line height (condition.map (Expr.respell word))) := by
  cases condition with
  | none => exact respells_empty
  | some e => exact respells_single rfl

/-! ### Functions -/

theorem Item.map_snd_row (offset : Nat) (items : List Item) :
    (Item.row offset items).map Prod.snd = items.map Item.instruction := by
  induction items generalizing offset with
  | nil => rfl
  | cons item items ih => rw [Item.row, List.map_cons, List.map_cons, ih]

namespace Fragment

variable {a b : Fragment} {names : List Bool} {f : Function}

/-- The instructions that the reader finds in a function are those of the fragment that makes it. -/
theorem Makes.mem_instructions (h : a.Makes f) {found : Array (Nat × Instruction)}
    (hfound : f.chunk.instructions = .ok found)
    {i : Instruction} : (∃ place, (place, i) ∈ found) ↔ ∃ item ∈ a.items, item.instruction = i := by
  have hrow : f.chunk.instructions = .ok (Item.row 0 a.items).toArray := Chunk.instructions_eq_ok.mpr h.fills
  cases hfound.symm.trans hrow
  have hsnd : i ∈ (Item.row 0 a.items).map Prod.snd ↔ i ∈ a.items.map Item.instruction := by
    rw [Item.map_snd_row]
  simpa [List.mem_map] using hsnd

theorem RespellsAs.toNat_operandByte (h : RespellsAs word 0 names a b) (hmakes : a.Makes f) {k : Nat}
    {name : Bool} (hk : names[k]? = some name) : (operandByte (0 + k)).toNat = k := by
  have hlt := (List.getElem?_eq_some_iff.mp hk).1
  have hroom : a.constants.length ≤ Chunk.maxConstants := by simpa [hmakes.chunk] using hmakes.room
  rw [Nat.zero_add, Lox.toNat_operandByte (Nat.lt_of_lt_of_le (h.length ▸ hlt) hroom)]

/-- The constants that instructions of a function take for names are those that are spelled differently. -/
theorem RespellsAs.isName_iff (h : RespellsAs word 0 names a b) (hmakes : a.Makes f) (k : Nat) :
    f.chunk.isName k = true ↔ names[k]? = some true := by
  have hrow : f.chunk.instructions = .ok (Item.row 0 a.items).toArray :=
    Chunk.instructions_eq_ok.mpr hmakes.fills
  have hfound : f.chunk.isName k = true ↔
      ∃ i, (∃ place, (place, i) ∈ (Item.row 0 a.items).toArray) ∧ ∃ index, i.name? = some index ∧
      index.toNat = k := by
    unfold Chunk.isName
    rw [hrow]
    simp only [Array.any_eq_true', Option.any_eq_true, decide_eq_true_eq, Prod.exists]
    tauto
  rw [hfound]
  constructor
  · rintro ⟨i, hi, index, hname, rfl⟩
    obtain ⟨item, hitem, rfl⟩ := (hmakes.mem_instructions hrow).mp hi
    obtain ⟨j, hj, rfl⟩ := h.named item hitem index hname
    rwa [h.toNat_operandByte hmakes hj]
  · intro hk
    obtain ⟨item, hitem, hname⟩ := h.taken k hk
    exact ⟨_, (hmakes.mem_instructions hrow).mpr ⟨item, hitem, rfl⟩, _, hname, h.toNat_operandByte hmakes hk⟩

/-- No instruction of a function loads a constant that another one takes for a name. -/
theorem RespellsAs.isName_loaded (h : RespellsAs word 0 names a b) (hmakes : a.Makes f)
    {found : Array (Nat × Instruction)}
    (hfound : f.chunk.instructions = .ok found) {place : Nat} {index : UInt8}
    (hload : (place, .constant index) ∈ found) :
    f.chunk.isName index.toNat = false := by
  obtain ⟨item, hitem, hi⟩ := (hmakes.mem_instructions hfound).mp ⟨place, hload⟩
  obtain ⟨k, hk, rfl⟩ := h.loaded item hitem index hi
  rw [h.toNat_operandByte hmakes hk]
  refine Bool.eq_false_iff.mpr fun hname => ?_
  rw [h.isName_iff hmakes, hk] at hname
  cases hname

theorem RespellsAs.chunk (h : RespellsAs word 0 names a b) (hmakes : a.Makes f) :
    f.chunk.respell word = { code := b.bytes.toArray, lines := b.lines.toArray, constants := b.constants } := by
  have hbytes : b.bytes = a.bytes := by rw [bytes, bytes, h.items]
  have hlines : b.lines = a.lines := by rw [lines, lines, h.items]
  have hconstants : Constant.respellFrom word f.chunk.isName 0 a.constants = b.constants := by
    apply List.ext_getElem?
    intro k
    rw [Constant.getElem?_respellFrom, h.constants, List.getElem?_zipWith, Nat.zero_add]
    have hname := h.isName_iff hmakes k
    cases hk : names[k]? with
    | none =>
      rw [List.getElem?_eq_none_iff, h.length] at hk
      rw [List.getElem?_eq_none hk]
      rfl
    | some name =>
      rw [hk, Option.some.injEq, Bool.coe_iff_coe] at hname
      rw [hname]
      cases a.constants[k]? <;> rfl
  have hchunk := hmakes.chunk
  rw [hbytes, hlines, ← hconstants]
  rw [hchunk]
  rfl

end Fragment

theorem Routine.function_eq (name : Option String) (r : Routine) : r.function name =
    { arity := operandByte r.parameters.length
      chunk :=
        { code := (r.code name).bytes.toArray, lines := (r.code name).lines.toArray,
          constants := (r.code name).constants }
      name } := by
  obtain ⟨place, parameters, body, line⟩ := r
  rfl

/-- If the code of a legal routine becomes that of the routine with its names spelled differently, so
    does its function. -/
theorem Fragment.Respells.function {name : Option String} {r : Routine}
    (h : Respells word 0 (r.code name) ((r.respell word).code (name.map word))) (hlegal : r.Legal name) :
    (r.respell word).function (name.map word) = (r.function name).respell word := by
  obtain ⟨names, h⟩ := h
  have hchunk := h.chunk hlegal.makes_code
  obtain ⟨place, parameters, body, line⟩ := r
  rw [Routine.function_eq, ← hchunk, Routine.respell, List.length_map]
  rfl

/-! ### Statements and routines -/

-- A function inside is a constant that is loaded: it is spelled differently as a whole, since its own
-- constants count from zero again. That its code is read as it was written takes the static rules, so they
-- are assumed of all statements.
mutual

theorem Stmt.respells (hword : ∀ {x y : String}, word x = word y → x = y) (hempty : word "" = "")
    {isScript : Bool} :
    ∀ (s : Stmt) {scope : Scope}, s.Allowed isScript scope → ∀ count,
      Respells word count (s.code scope count) ((s.respell word).code (scope.respell word) count)
  | .print value line, scope, _, count => by
    rw [Stmt.respell, Stmt.code, Stmt.code, scope.height_respell]
    exact (value.respells hword scope.locals count _).single rfl
  | .expression value line, scope, _, count => by
    rw [Stmt.respell, Stmt.code, Stmt.code, scope.height_respell]
    exact (value.respells hword scope.locals count _).single rfl
  | .ret none line, scope, _, count => by
    rw [Stmt.respell, Option.map_none, Stmt.code, Stmt.code, scope.height_respell]
    exact (respells_single rfl).single rfl
  | .ret (some value) line, scope, _, count => by
    rw [Stmt.respell, Option.map_some, Stmt.code, Stmt.code, scope.height_respell]
    exact (value.respells hword scope.locals count _).single rfl
  | .ifElse condition line thenPart none, scope, h, count => by
    have hcondition := condition.respells hword scope.locals count scope.height
    have hthen := thenPart.respells hword hempty h.2.1
    simp only [Stmt.respell, Stmt.code, scope.locals_respell, scope.height_respell, Stmt.length_respell,
      Stmt.endLine_respell, hcondition.length]
    exact ((((hcondition.single rfl).single rfl).append (hthen _) (by simp)).single rfl).single rfl
  | .ifElse condition line thenPart (some elsePart), scope, h, count => by
    have hcondition := condition.respells hword scope.locals count scope.height
    have hthen := thenPart.respells hword hempty h.2.1
      (count + (condition.code scope.locals count scope.height).constants.length)
    have helse := elsePart.respells hword hempty h.2.2.1
    simp only [Stmt.respell, Stmt.code, scope.locals_respell, scope.height_respell, Stmt.length_respell,
      Stmt.endLine_respell, hcondition.length, hthen.length]
    refine (((((hcondition.single rfl).single rfl).append hthen ?_).single rfl).single rfl).append (helse _) ?_
    · simp
    · simp [Nat.add_assoc]
  | .whileLoop condition line body, scope, h, count => by
    have hcondition := condition.respells hword scope.locals count scope.height
    have hbody := body.respells hword hempty h.2.1
    simp only [Stmt.respell, Stmt.code, scope.locals_respell, scope.height_respell, Stmt.length_respell,
      Stmt.endLine_respell, Expr.length_respell, hcondition.length]
    exact ((((hcondition.single rfl).single rfl).append (hbody _) (by simp)).single rfl).single rfl
  | .forLoop initializer condition line increment body, scope, h, count => by
    have hinner : (scope.respell word).inner = scope.inner.respell word := rfl
    have hfirst := initializer.respells hword scope.inner count
    have hsecond := Stmt.respellsCondition hword (scope.inner.after initializer.name?).locals
      (count + (initializer.code scope.inner count).constants.length)
        (scope.inner.after initializer.name?).height line
      (Stmt.incrementLength increment + body.length + 3) condition
    have hthird := fun count => Stmt.respellsIncrement hword (scope.inner.after initializer.name?).locals count
      (scope.inner.after initializer.name?).height line (Stmt.conditionLength condition) increment
    have hbody := body.respells hword hempty h.2.2.2.1
    simp only [Stmt.respell, Stmt.code, hinner, Initializer.name?_respell, Scope.after_respell,
      Scope.locals_respell,
      Scope.height_respell, Stmt.length_respell, Stmt.endLine_respell, Stmt.conditionLength_respell,
      Stmt.incrementLength_respell, Stmt.roundLength_respell, hfirst.length, hsecond.length, (hthird _).length]
    refine Respells.append (Respells.append (Respells.single (Respells.append ?_ (hbody _) ?_) rfl)
      (Stmt.respellsExit _ _ _ condition) rfl) (respells_pops _ _ _) rfl
    · exact (hfirst.append hsecond rfl).append (hthird _) (by simp [Nat.add_assoc])
    · simp [Nat.add_assoc]
  | .block declarations line, scope, h, count => by
    rw [Stmt.respell, Stmt.code, Stmt.code, scope.height_respell, Decl.names_respellAll, List.length_map]
    exact (Decl.respellsAll hword hempty declarations h count).append (respells_pops _ _ _) rfl

theorem Decl.respells (hword : ∀ {x y : String}, word x = word y → x = y) (hempty : word "" = "")
    {isScript : Bool} :
    ∀ (d : Decl) {scope : Scope}, d.Allowed isScript scope → ∀ count,
      Respells word count (d.code scope count) ((d.respell word).code (scope.respell word) count)
  | .var v, scope, _, count => v.respells hword scope count
  | .function name r, scope, h, count => by
    have hlegal : r.Legal (some name) := ⟨h.2, fun h => by cases h⟩
    have hfunction : (r.respell word).function (some (word name)) = (r.function (some name)).respell word :=
      (r.respells hword hempty hlegal).function hlegal
    have hline : (r.respell word).line = r.line := by
      cases r
      rfl
    rw [Decl.respell, Decl.code, Decl.code, scope.depth_respell, scope.height_respell, hfunction, hline]
    split
    · rw [append_assoc (pool _), append_assoc (pool _)]
      exact (respells_loaded (.function (r.function (some name)))).named name fun _ => rfl
    · exact respells_loaded (.function (r.function (some name)))
  | .statement s, scope, h, count => s.respells hword hempty h count

theorem Decl.respellsAll (hword : ∀ {x y : String}, word x = word y → x = y) (hempty : word "" = "")
    {isScript : Bool} :
    ∀ (ds : List Decl) {scope : Scope}, Decl.AllAllowed isScript scope ds → ∀ count,
      Respells word count (Decl.codes scope count ds)
        (Decl.codes (scope.respell word) count (Decl.respellAll word ds))
  | [], scope, _, count => respells_empty
  | d :: ds, scope, h, count => by
    have hd := d.respells hword hempty h.1 count
    simp only [Decl.respellAll, Decl.codes, Decl.name?_respell, scope.after_respell, hd.length]
    exact hd.append (Decl.respellsAll hword hempty ds h.2 _) rfl

/-- The code of a legal routine. -/
theorem Routine.respells (hword : ∀ {x y : String}, word x = word y → x = y) (hempty : word "" = "") :
    ∀ (r : Routine) {name : Option String}, r.Legal name →
      Respells word 0 (r.code name) ((r.respell word).code (name.map word))
  | ⟨place, parameters, body, line⟩, name, h => by
    have hallowed := h.allowed
    rw [Routine.Allowed] at hallowed
    simp only [Routine.respell, Routine.code, Scope.ofRoutine_respell hempty, Scope.afterAll_respell,
      Scope.height_respell]
    exact ((Decl.respellsAll hword hempty body hallowed.2.2.1 0).single rfl).single rfl

end

end Lox
