import Lox.Proofs.Machine.Termination
import Lox.Proofs.Verification.Compiled

/-! # Programs without loops

A text with neither of the words `while` and `for` has a tree without loops, and in the code of such a tree
every jump goes forward. So what it compiles to always comes to an end, together with whatever functions of
other such texts it calls. -/

namespace Lox

/-! ### Trees -/

mutual

/-- A statement without loops, also in the functions inside. -/
def Stmt.Loopless : Stmt → Prop
  | .print _ _ | .expression _ _ | .ret _ _ => True
  | .ifElse _ _ thenPart none => thenPart.Loopless
  | .ifElse _ _ thenPart (some elsePart) => thenPart.Loopless ∧ elsePart.Loopless
  | .whileLoop _ _ _ | .forLoop _ _ _ _ _ => False
  | .block declarations _ => Decl.AllLoopless declarations

/-- A declaration without loops. -/
def Decl.Loopless : Decl → Prop
  | .var _ => True
  | .function _ routine => routine.Loopless
  | .statement s => s.Loopless

/-- Declarations without loops. -/
def Decl.AllLoopless : List Decl → Prop
  | [] => True
  | d :: ds => d.Loopless ∧ Decl.AllLoopless ds

/-- A routine without loops. -/
def Routine.Loopless : Routine → Prop
  | ⟨_, _, body, _⟩ => Decl.AllLoopless body

end

/-- None of the tokens is a word with which a loop begins. -/
def Token.Loopless (tokens : List Token) : Prop :=
  ∀ token ∈ tokens, token.kind ≠ .whileWord ∧ token.kind ≠ .forWord

namespace Token.Loopless

variable {token : Token} {input rest : List Token}

theorem tail (h : Loopless (token :: input)) : Loopless input := fun t ht => h t (List.mem_cons_of_mem _ ht)

theorem passes (h : Loopless input) (hpasses : Grammar.Passes input rest) : Loopless rest := by
  obtain ⟨taken, rfl, -⟩ := hpasses
  exact fun t ht => h t (List.mem_append_right _ ht)

end Token.Loopless

namespace Grammar

mutual

theorem Statement.loopless {input rest : List Token} {s : Stmt} :
    Statement input s rest → Token.Loopless input → s.Loopless
  | .print _ _ _, _ | .expression _ _, _ | .bareReturn _ _, _ | .ret _ _ _, _ => trivial
  | .ifThen _ _ he _ hs _, h => hs.loopless (h.tail.tail.passes he.consumes.passes).tail
  | .ifElse _ _ he _ hs _ ht, h =>
    have hthen := (h.tail.tail.passes he.consumes.passes).tail
    ⟨hs.loopless hthen, ht.loopless (hthen.passes hs.consumes.passes).tail⟩
  | .whileLoop hword _ _ _ _, h => absurd hword (h _ List.mem_cons_self).1
  | .forLoop hword _ _ _ _ _, h => absurd hword (h _ List.mem_cons_self).2
  | .block _ hds _, h => hds.loopless h.tail

theorem Declaration.loopless {input rest : List Token} {d : Decl} :
    Declaration input d rest → Token.Loopless input → d.Loopless
  | .var _ _, _ => trivial
  | .function _ _ hparameters _ hds _, h => hds.loopless (h.tail.tail.passes hparameters.consumes.passes).tail
  | .statement hs, h => hs.loopless h

theorem Declarations.loopless {input rest : List Token} {ds : List Decl} :
    Declarations input ds rest → Token.Loopless input → Decl.AllLoopless ds
  | .none, _ => trivial
  | .more hd hds, h => ⟨hd.loopless h, hds.loopless (h.passes hd.consumes.passes)⟩

end

theorem Program.loopless {tokens : List Token} {r : Routine} (h : Program tokens r)
    (htokens : Token.Loopless tokens) :
    r.Loopless := by
  obtain ⟨hds, -⟩ := h
  exact hds.loopless htokens

end Grammar

/-! ### Code -/

/-- The code of the function is a row of instructions, none of which goes back. -/
def Function.WrittenForward (f : Function) : Prop :=
  ∃ items : List Item, f.chunk.code = (items.flatMap (·.instruction.bytes)).toArray ∧
    ∀ item ∈ items, item.instruction.opcode ≠ .loop

namespace Fragment

/-- No instruction of the code goes back, and none of a function in its constants. -/
structure Forward (code : Fragment) : Prop where
  items : ∀ item ∈ code.items, item.instruction.opcode ≠ .loop
  functions : ∀ f, .function f ∈ code.constants → ∀ g ∈ f.all, g.WrittenForward

variable {a b : Fragment} {line : UInt32} {height : Nat} {i : Instruction}

@[simp] theorem forward_append : (a ++ b).Forward ↔ a.Forward ∧ b.Forward := by
  constructor
  · rintro ⟨hitems, hfunctions⟩
    rw [items_append, List.forall_mem_append] at hitems
    exact ⟨⟨hitems.1, fun f hf => hfunctions f (List.mem_append_left _ hf)⟩,
      ⟨hitems.2, fun f hf => hfunctions f (List.mem_append_right _ hf)⟩⟩
  · rintro ⟨ha, hb⟩
    refine ⟨List.forall_mem_append.mpr ⟨ha.items, hb.items⟩, fun f hf => ?_⟩
    rcases List.mem_append.mp hf with hf | hf
    · exact ha.functions f hf
    · exact hb.functions f hf

@[simp] theorem forward_single : (single line height i).Forward ↔ i.opcode ≠ .loop :=
  ⟨fun h => h.items _ (List.mem_singleton_self _),
    fun h => ⟨List.forall_mem_singleton.mpr h, fun _ hf => absurd hf List.not_mem_nil⟩⟩

theorem forward_empty : Forward {} :=
  ⟨fun _ h => absurd h List.not_mem_nil, fun _ h => absurd h List.not_mem_nil⟩

theorem forward_pool {constant : Constant} (h : ∀ f, constant = .function f → ∀ g ∈ f.all, g.WrittenForward) :
    (pool constant).Forward :=
  ⟨fun _ h => absurd h List.not_mem_nil, fun f hf => h f (List.mem_singleton.mp hf).symm⟩

@[simp] theorem forward_pool_string (text : String) : (pool (.string text)).Forward :=
  forward_pool fun _ h => by cases h

theorem forward_pops (line : UInt32) (height count : Nat) : (pops line height count).Forward := by
  induction count with
  | zero => exact forward_empty
  | succ count ih => exact forward_append.mpr ⟨forward_single.mpr (by decide), ih⟩

end Fragment

open Fragment

theorem Literal.forward (literal : Literal) (line : UInt32) (count height : Nat) :
    (literal.code line count height).Forward := by
  cases literal with
  | nil => exact forward_single.mpr (by decide)
  | bool b => cases b <;> exact forward_single.mpr (by decide)
  | number bits =>
    have hpool : (pool (.number bits)).Forward := forward_pool fun _ h => by cases h
    simp [Literal.code, hpool, Instruction.opcode]
  | string text => simp [Literal.code, Instruction.opcode]

theorem UnaryOp.opcode_ne_loop (op : UnaryOp) : op.instruction.opcode ≠ .loop := by
  cases op <;> decide

theorem BinaryOp.forward (op : BinaryOp) (line : UInt32) (height : Nat) : (op.code line height).Forward := by
  unfold BinaryOp.code
  refine forward_append.mpr ⟨forward_single.mpr (by cases op <;> decide), ?_⟩
  split
  · exact forward_single.mpr (by decide)
  · exact forward_empty

mutual

theorem Expr.forward (locals : List Local) : ∀ (e : Expr) (count height : Nat),
    (e.code locals count height).Forward
  | .literal value line, count, height => value.forward line count height
  | .mention name line, count, height => by
    rw [Expr.code]
    split <;> simp [Instruction.opcode]
  | .assign name value, count, height => by
    rw [Expr.code]
    split <;> simp [Instruction.opcode, Expr.forward locals value]
  | .group inner _, count, height => Expr.forward locals inner count height
  | .unary op operand, count, height => by
    simp [Expr.code, Expr.forward locals operand, op.opcode_ne_loop]
  | .binary op left right, count, height => by
    simp [Expr.code, Expr.forward locals left, Expr.forward locals right, op.forward]
  | .and left line right, count, height | .or left line right, count, height => by
    simp [Expr.code, Expr.forward locals left, Expr.forward locals right, Instruction.opcode]
  | .call callee arguments line, count, height => by
    simp [Expr.code, Expr.forward locals callee, Expr.forward_all locals arguments, Instruction.opcode]

theorem Expr.forward_all (locals : List Local) : ∀ (es : List Expr) (count height : Nat),
    (Expr.codes locals count height es).Forward
  | [], count, height => forward_empty
  | e :: es, count, height => by
    simp [Expr.codes, Expr.forward locals e, Expr.forward_all locals es]

end

theorem Variable.forward (scope : Scope) (v : Variable) (count : Nat) : (v.code scope count).Forward := by
  have hvalue : ∀ locals count height, (v.valueCode locals count height).Forward := by
    intro locals count height
    unfold Variable.valueCode
    split
    · exact forward_single.mpr (by decide)
    · exact Expr.forward locals _ count height
  unfold Variable.code
  split
  · simp [hvalue, Instruction.opcode]
  · exact hvalue _ _ _

mutual

theorem Stmt.forward : ∀ (s : Stmt), s.Loopless → ∀ (scope : Scope) (count : Nat), (s.code scope count).Forward
  | .print value line, _, scope, count | .expression value line, _, scope, count
  | .ret (some value) line, _, scope, count => by
    simp [Stmt.code, Expr.forward, Instruction.opcode]
  | .ret none line, _, scope, count => by
    simp [Stmt.code, Instruction.opcode]
  | .ifElse condition line thenPart none, h, scope, count => by
    simp [Stmt.code, Expr.forward, thenPart.forward h, Instruction.opcode]
  | .ifElse condition line thenPart (some elsePart), h, scope, count => by
    simp [Stmt.code, Expr.forward, thenPart.forward h.1, elsePart.forward h.2, Instruction.opcode]
  | .whileLoop _ _ _, h, _, _ => absurd h id
  | .forLoop _ _ _ _ _, h, _, _ => absurd h id
  | .block declarations line, h, scope, count => by
    rw [Stmt.code]
    exact forward_append.mpr ⟨Decl.forward_all declarations h _ _, forward_pops _ _ _⟩

theorem Decl.forward : ∀ (d : Decl), d.Loopless → ∀ (scope : Scope) (count : Nat), (d.code scope count).Forward
  | .var v, _, scope, count => v.forward scope count
  | .function name routine, h, scope, count => by
    have hpool : (pool (.function (routine.function (some name)))).Forward := by
      refine forward_pool fun f hf g hg => ?_
      cases hf
      exact routine.writtenForward h (some name) g hg
    rw [Decl.code]
    split <;> simp [hpool, Instruction.opcode]
  | .statement s, h, scope, count => s.forward h scope count

theorem Decl.forward_all : ∀ (ds : List Decl), Decl.AllLoopless ds → ∀ (scope : Scope) (count : Nat),
    (Decl.codes scope count ds).Forward
  | [], _, _, _ => forward_empty
  | d :: ds, h, scope, count => forward_append.mpr ⟨d.forward h.1 scope count, Decl.forward_all ds h.2 _ _⟩

/-- In the function of a routine without loops, and in those inside, no instruction goes back. -/
theorem Routine.writtenForward : ∀ (r : Routine), r.Loopless → ∀ (name : Option String),
    ∀ g ∈ (r.function name).all, g.WrittenForward
  | ⟨place, parameters, body, line⟩, h, name, g, hg => by
    have hforward : (Routine.code name ⟨place, parameters, body, line⟩).Forward := by
      unfold Routine.code
      simp [Decl.forward_all body h, Instruction.opcode]
    rcases Function.mem_all.mp hg with rfl | ⟨f, hf, hg⟩
    · exact ⟨_, rfl, hforward.items⟩
    · exact hforward.functions f hf g hg

end

/-! ### Functions -/

/-- What fills the code of some items are their instructions. -/
theorem Chunk.Fills.exists_item {chunk : Chunk} {items : List Item} {found : List (Nat × Instruction)}
    {offset : Nat}
    (hread : Item.Along (fun place item => Instruction.read chunk.code place = .instruction item.instruction)
      offset items)
    (hsize : offset + (items.map Item.size).sum = chunk.size) (h : chunk.Fills offset found) :
    ∀ entry ∈ found, ∃ item ∈ items, item.instruction = entry.2 := by
  induction found generalizing offset items with
  | nil => exact fun _ hentry => absurd hentry List.not_mem_nil
  | cons entry found ih =>
    obtain ⟨-, hentry, -, hrest⟩ := h
    cases items with
    | nil =>
      cases hentry.symm.trans (Instruction.read_eq_pastEnd (Nat.le_of_eq hsize.symm))
    | cons item items =>
      obtain ⟨hitem, hitems⟩ := hread
      have hsame : item.instruction = entry.2 := Instruction.Reading.instruction.inj (hitem.symm.trans hentry)
      rw [List.map_cons, List.sum_cons, ← Nat.add_assoc] at hsize
      rw [← hsame] at hrest
      intro other hother
      rcases List.mem_cons.mp hother with rfl | hother
      · exact ⟨item, List.mem_cons_self, hsame⟩
      · obtain ⟨found, hfound, heq⟩ := ih hitems hsize hrest other hother
        exact ⟨found, List.mem_cons_of_mem _ hfound, heq⟩

theorem Function.WrittenForward.forward {f : Function} (h : f.WrittenForward) : f.chunk.Forward := by
  obtain ⟨items, hcode, hitems⟩ := h
  intro found hfound entry hentry
  have hread := Item.along_read items
  have hsize : 0 + (items.map Item.size).sum = f.chunk.size := by
    rw [Nat.zero_add, Chunk.size, hcode, List.size_toArray, List.length_flatMap]
    simp [Instruction.length_bytes]
  rw [← hcode] at hread
  obtain ⟨item, hitem, heq⟩ := (Chunk.instructions_eq_ok.mp hfound).exists_item hread hsize entry
    (Array.mem_def.mp hentry)
  rw [← heq]
  exact hitems item hitem

/-- A function of a program without loops. -/
def Function.CompiledLoopless (f : Function) : Prop :=
  ∃ source script, Token.Loopless (Token.scan source) ∧ compile source = .ok script ∧ f ∈ script.all

theorem Function.CompiledLoopless.forward {f : Function} (h : f.CompiledLoopless) : f.Verified ∧ f.Forward := by
  obtain ⟨source, script, htokens, hcompile, hf⟩ := h
  obtain ⟨r, hprogram, -, rfl⟩ := (compile_iff_program source script).mp hcompile
  refine ⟨Function.verify_eq_ok.mpr fun g hg => ?_, fun g hg => ?_⟩
  · exact Function.verify_eq_ok.mp (compile_verified hcompile).1 g (Function.mem_all_trans hg _ hf)
  · exact (r.writtenForward (hprogram.loopless htokens) none g (Function.mem_all_trans hg _ hf)).forward

namespace Machine

/-- A program without loops comes to an end, with success or with an error, on every machine whose
    globals hold only functions of such programs: however it calls them, and whatever the limit on
    the active calls is. -/
theorem loopless_ends {hosts : Hosts} (hhosts : hosts.Faithful) {m : Machine}
    (hglobals : m.globals.In Function.CompiledLoopless) {source : String}
    (htokens : Token.Loopless (Token.scan source))
    {script : Function} (hcompile : compile source = .ok script) :
    ∃ fuel outcome, m.run hosts fuel script = some outcome := by
  have hscript : script.CompiledLoopless := ⟨source, script, htokens, hcompile, script.mem_all_self⟩
  exact forward_ends hhosts (fun entry hentry id f hf => (hglobals entry hentry id f hf).forward)
    hscript.forward.1
    hscript.forward.2

/-- Two functions that call each other for ever end when no more calls can be active. -/
theorem loopless_ends_recursion : ∃ script fuel outcome,
    compile "fun f(a) { return g(a); } fun g(a) { if (a) f(a); } f(true);" = .ok script ∧
    (Machine.new ⟨7, none⟩ {}).run (Host.standard 0) fuel script = some outcome ∧
    outcome.result.mapError RuntimeError.fault = .error .stackOverflow := by
  have hstops :
      ((compile "fun f(a) { return g(a); } fun g(a) { if (a) f(a); } f(true);").toOption.any fun script =>
      ((Machine.new ⟨7, none⟩ {}).run (Host.standard 0) 60 script).any fun outcome =>
        decide (outcome.result.mapError RuntimeError.fault = .error .stackOverflow)) = true := by decide +kernel
  obtain ⟨script, hcompile, hruns⟩ := exists_ok_of_any hstops
  obtain ⟨outcome, hrun, hresult⟩ := (Option.any_eq_true _ _).mp hruns
  have htokens :
      Token.Loopless (Token.scan "fun f(a) { return g(a); } fun g(a) { if (a) f(a); } f(true);") := by
    unfold Token.Loopless
    decide +kernel
  obtain ⟨fuel, ended, hended⟩ :=
    loopless_ends (Host.faithful_standard 0).always (globals_new _ _ _) htokens hcompile
  have hsame := run_add (k := fuel) hrun
  rw [Nat.add_comm, run_add (k := 60) hended] at hsame
  cases hsame
  exact ⟨script, fuel, outcome, hcompile, hended, of_decide_eq_true hresult⟩

end Machine

end Lox
