import Lox.Proofs.Compilation.Point

/-! # Writing code

How the point of a compilation changes where code is written and jumps are closed. -/

namespace Lox

theorem bytes_jump (word : UInt16) :
    (Instruction.jump word).bytes = [Opcode.jump.byte, highByte word, lowByte word] := rfl

theorem bytes_jumpIfFalse (word : UInt16) :
    (Instruction.jumpIfFalse word).bytes = [Opcode.jumpIfFalse.byte, highByte word, lowByte word] := rfl

/-- Overwriting the placeholder of a jump. -/
theorem Chunk.patch_add (chunk : Chunk) (op : UInt8) (jump : UInt16 → Instruction) (line : UInt32)
    (height : Nat)
    (y : Fragment) (word : UInt16) (hjump : ∀ w, (jump w).bytes = [op, highByte w, lowByte w]) :
    ((chunk.add (.single line height (jump 0xffff))).add y).patch (chunk.size + 1) word =
      (chunk.add (.single line height (jump word))).add y := by
  have hsize : ∀ w, (jump w).size = 3 := fun w => by rw [← Instruction.length_bytes, hjump]; rfl
  have hset : ∀ xs ys : List UInt8, ((xs ++ [op, highByte 0xffff, lowByte 0xffff] ++ ys).set (xs.length + 1)
      (highByte word)).set (xs.length + 1 + 1) (lowByte word) = xs ++ [op, highByte word, lowByte word] ++
        ys := by
    intro xs ys
    have hlt : ¬xs.length + 1 + 1 < xs.length := by omega
    have hsub : xs.length + 1 + 1 - xs.length = 2 := by omega
    simp [List.set_append, hlt, hsub]
  have hcode := hset chunk.code.toList y.bytes
  simp only [Chunk.add, Chunk.patch, Chunk.size, Fragment.single, Fragment.bytes, Fragment.lines,
    List.flatMap_cons, List.flatMap_nil, List.append_nil, hjump, hsize, Chunk.mk.injEq, and_true]
  apply Array.toList_inj.mp
  simpa [Fragment.bytes] using hcode

namespace Compiler

/-! ### Writing code -/

theorem foldl_writeByte (bytes : List UInt8) (c : Compiler) (arity : UInt8) (chunk : Chunk)
    (name : Option String) (hfunction : c.body.function = ⟨arity, chunk, name⟩) :
    bytes.foldl writeByte c =
      { c with body.function := ⟨arity, ⟨chunk.code ++ bytes.toArray,
          chunk.lines ++ (List.replicate bytes.length c.previous.line).toArray, chunk.constants⟩, name⟩ } := by
  induction bytes generalizing c chunk with
  | nil =>
    obtain ⟨code, lines, constants⟩ := chunk
    simp [← hfunction]
  | cons byte bytes ih =>
    have hwritten : (c.writeByte byte).body.function = ⟨arity, chunk.write byte c.previous.line, name⟩ := by
      simp [writeByte, hfunction]
    have hpush : ∀ {α : Type} (xs : Array α) (x : α) (ys : List α),
        xs.push x ++ ys.toArray = xs ++ (x :: ys).toArray :=
      fun xs x ys => Array.toList_inj.mp (by simp)
    rw [List.foldl_cons, ih _ _ hwritten, Chunk.write, hpush, hpush, List.length_cons, List.replicate_succ]
    rfl

theorem emit_eq (c : Compiler) (instruction : Instruction) (height : Nat) :
    c.emit instruction = { c with body := c.body.add (.single c.previous.line height instruction) } := by
  obtain ⟨previous, current, rest, panicking, diagnostics, ⟨⟨arity, chunk, name⟩, isScript, locals, depth⟩,
    finished⟩ := c
  rw [emit, foldl_writeByte _ _ arity chunk name rfl]
  simp [Body.add, Chunk.add, Fragment.bytes, Fragment.lines, Fragment.single, Instruction.length_bytes]

section

variable {c : Compiler} {p : Point}

/-- Replacing the function that is being compiled. -/
theorem At.setBody (h : c.At p) {b : Body} (hroom : b.count ≤ Chunk.maxConstants) :
    { c with body := b }.At { p with body := b } :=
  ⟨h.clean, h.calm, h.tokens, h.line, rfl, h.readable, h.ends, hroom⟩

theorem At.emit (h : c.At p) (instruction : Instruction) (height : Nat) :
    (c.emit instruction).At (p.add (.single p.line height instruction)) := by
  rw [emit_eq c instruction height, h.line, h.body]
  refine h.setBody ?_
  rw [Body.count_add]
  exact h.room

theorem At.codeSize (h : c.At p) : c.codeSize = p.body.size := by
  rw [Compiler.codeSize, h.body]
  rfl

theorem At.addConstant (h : c.At p) (constant : Constant) (hroom : p.body.count < Chunk.maxConstants) :
    (c.addConstant constant).1 = operandByte p.body.count ∧
      (c.addConstant constant).2.At (p.add (.pool constant)) := by
  have hif : p.body.function.chunk.constants.length < Chunk.maxConstants := hroom
  have hbody : p.body.add (.pool constant) = { p.body with
      function.chunk.constants := p.body.function.chunk.constants ++ [constant] } := by
    simp [Body.add, Chunk.add, Fragment.pool, Fragment.bytes, Fragment.lines]
  unfold Compiler.addConstant Chunk.addConstant?
  rw [h.body, Point.add, hbody]
  simp only [hif, if_true]
  refine ⟨rfl, h.setBody ?_⟩
  rw [← hbody, Body.count_add]
  exact hroom

theorem At.addConstant_failed (h : c.At p) (constant : Constant) (hroom : ¬p.body.count < Chunk.maxConstants) :
    (c.addConstant constant).2.Failed := by
  have hif : ¬p.body.function.chunk.constants.length < Chunk.maxConstants := hroom
  unfold Compiler.addConstant Chunk.addConstant?
  rw [h.body]
  simp only [hif, if_false]
  exact h.report _ _

theorem At.emitConstant (h : c.At p) (constant : Constant) (height : Nat) :
    Outcome (c.emitConstant constant) fun q => p.body.count < Chunk.maxConstants ∧
      q = p.add (.pool constant ++ .single p.line height (.constant (operandByte p.body.count))) := by
  refine outcome_guard (fun hroom => ?_) fun hroom => failed_stable.emit (h.addConstant_failed constant hroom) _
  obtain ⟨hindex, hat⟩ := h.addConstant constant hroom
  have hemit := hat.emit (.constant (operandByte p.body.count)) height
  rw [← hindex, Point.add, Point.body_add, Body.add_add] at hemit
  exact hindex ▸ hemit

/-! ### Jumps -/

theorem At.openJump (h : c.At p) (jump : UInt16 → Instruction) (height : Nat) :
    (c.openJump jump).2.At (p.add (.single p.line height (jump 0xffff))) := h.emit (jump 0xffff) height

theorem At.openJump_place (h : c.At p) (jump : UInt16 → Instruction) (hsize : (jump 0xffff).size = 3) :
    (c.openJump jump).1 = p.body.size + 1 := by
  have hat := h.openJump jump 0
  show (c.openJump jump).2.codeSize - 2 = _
  rw [hat.codeSize, Point.body_add, Body.size_add, Fragment.size_single, hsize]
  rfl

/-- Closing a jump over the code that was written after it. -/
theorem At.closeJump {op : UInt8} {jump : UInt16 → Instruction} {place : Nat} (h : c.At p)
    (hjump : ∀ w, (jump w).bytes = [op, highByte w, lowByte w]) (b : Body) (hplace : place = b.size + 1)
    (line : UInt32)
    (height : Nat) (y : Fragment) (hbody : p.body = b.add (.single line height (jump 0xffff) ++ y)) :
    Outcome (c.closeJump place) fun q => y.size ≤ maxJump ∧
      q = { p with body := b.add (.single line height (jump (operandWord y.size)) ++ y) } := by
  have hsize : (jump 0xffff).size = 3 := by rw [← Instruction.length_bytes, hjump]; rfl
  have hdistance : c.codeSize - place - 2 = y.size := by
    rw [h.codeSize, hbody, hplace, Body.size_add, Fragment.size_append, Fragment.size_single, hsize]
    omega
  unfold Compiler.closeJump
  rw [hdistance]
  dsimp only
  refine outcome_guard (fun hfits => ?_) fun hfits => ?_
  · have hpatch := Chunk.patch_add b.function.chunk op jump line height y (operandWord y.size) hjump
    have hcount : ((b.add (.single line height (jump (operandWord y.size)))).add y).count ≤
        Chunk.maxConstants := by
      have hroom := h.room
      rw [hbody] at hroom
      simpa using hroom
    have hset := h.setBody hcount
    rw [if_pos hfits, h.body, hbody, hplace, ← Body.add_add, ← Body.add_add]
    simp only [Body.add, Body.size] at hset ⊢
    rw [hpatch]
    exact hset
  · rw [if_neg hfits]
    exact h.report _ _

theorem At.emitLoop {start : Nat} (h : c.At p) (height distance : Nat)
    (hdistance : p.body.size + 3 - start = distance) :
    Outcome (c.emitLoop start) fun q => distance ≤ maxJump ∧
      q = p.add (.single p.line height (.loop (operandWord distance))) := by
  unfold Compiler.emitLoop
  rw [h.codeSize, hdistance]
  dsimp only
  refine outcome_guard (fun hfits => ?_) fun hfits => ?_
  · rw [if_neg (Nat.not_lt.mpr hfits), Nat.min_eq_left (Nat.le_trans hfits (by decide))]
    exact h.emit (.loop (operandWord distance)) height
  · rw [if_pos (Nat.lt_of_not_le hfits)]
    exact failed_stable.body _ _ (failed_stable.body
        _ _ (failed_reportAt (c := c.writeByte Opcode.loop.byte) h.calm _ _))

end

end Compiler

end Lox
