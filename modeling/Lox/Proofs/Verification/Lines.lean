import Lox.Proofs.Verification.Compiled

/-! # Lines of compiled code

All bytes of an instruction that the compiler writes have the line of its opcode. So the line of the last
byte that a call has read, which is the line that a trace shows, is the line of the instruction to which
the byte belongs. -/

namespace Lox

/-- Along code, the lines of the bytes of each instruction are its line. -/
theorem Item.along_lines (items : List Item) :
    Along (fun place item => ∀ k < item.size,
      (items.flatMap fun item => List.replicate item.size item.line)[place + k]? = some item.line) 0 items := by
  have hshift : ∀ (before : List UInt32) (rest : List Item),
      (items.flatMap fun item => List.replicate item.size item.line) =
        before ++ rest.flatMap (fun item => List.replicate item.size item.line) →
      Along (fun place item => ∀ k < item.size,
        (items.flatMap fun item => List.replicate item.size item.line)[place + k]? = some item.line)
          before.length rest := by
    intro before rest
    induction rest generalizing before with
    | nil => exact fun _ => trivial
    | cons item rest ih =>
      intro heq
      rw [List.flatMap_cons] at heq
      refine ⟨fun k hk => ?_, ?_⟩
      · rw [heq, List.getElem?_append_right (Nat.le_add_right _ _), Nat.add_sub_cancel_left,
          List.getElem?_append_left (by rwa [List.length_replicate]), List.getElem?_replicate, if_pos hk]
      · have hrest := ih (before ++ List.replicate item.size item.line) (by rw [heq, List.append_assoc])
        rwa [List.length_append, List.length_replicate] at hrest
  exact hshift [] items rfl

theorem Chunk.Fills.le_of_mem {chunk : Chunk} {offset : Nat} {items : List (Nat × Instruction)}
    (h : chunk.Fills offset items)
    {place : Nat} {i : Instruction} (hi : (place, i) ∈ items) : offset ≤ place := by
  induction items generalizing offset with
  | nil => cases hi
  | cons entry items ih =>
    obtain ⟨hoffset, -, -, hrest⟩ := h
    rcases List.mem_cons.mp hi with rfl | hi
    · exact Nat.le_of_eq hoffset.symm
    · exact Nat.le_trans (Nat.le_add_right _ _) (ih hrest hi)

/-- Every instruction of a row but the first begins where another one ends. -/
theorem Chunk.Fills.previous {chunk : Chunk} {offset : Nat} {items : List (Nat × Instruction)}
    (h : chunk.Fills offset items)
    {place : Nat} {i : Instruction} (hi : (place, i) ∈ items) (hplace : offset < place) :
    ∃ before j, (before, j) ∈ items ∧ before + j.size = place := by
  induction items generalizing offset with
  | nil => cases hi
  | cons entry items ih =>
    obtain ⟨hoffset, -, -, hrest⟩ := h
    rcases List.mem_cons.mp hi with rfl | hi
    · exact absurd hoffset (Nat.ne_of_gt hplace)
    · by_cases hnext : offset + entry.2.size < place
      · obtain ⟨before, j, hj, hbefore⟩ := ih hrest hi hnext
        exact ⟨before, j, List.mem_cons_of_mem _ hj, hbefore⟩
      · refine ⟨entry.1, entry.2, List.mem_cons_self, ?_⟩
        have hle := hrest.le_of_mem hi
        omega

namespace Fragment.Makes

variable {code : Fragment} {f : Function}

theorem instructions (h : code.Makes f) : f.chunk.instructions = .ok (Item.row 0 code.items).toArray :=
  Chunk.instructions_eq_ok.mpr h.fills

theorem isStart_iff (h : code.Makes f) {place : Nat} :
    f.chunk.IsStart place ↔ ∃ i, (place, i) ∈ Item.row 0 code.items := by
  constructor
  · rintro ⟨found, hfound, i, hi⟩
    cases hfound.symm.trans h.instructions
    exact ⟨i, List.mem_toArray.mp hi⟩
  · rintro ⟨i, hi⟩
    exact ⟨_, h.instructions, i, List.mem_toArray.mpr hi⟩

theorem jumpsInside (h : code.Makes f) : f.chunk.JumpsInside := by
  intro found hfound entry hentry hend
  cases hfound.symm.trans h.instructions
  have hjump : entry.2.distance? ≠ none := by
    intro hnone
    cases hi : entry.2 with
    | jump distance | jumpIfFalse distance | loop distance =>
      rw [hi] at hnone
      cases hnone
    | _ =>
      rw [hi] at hend
      cases hend
  obtain ⟨distance, hdistance⟩ := Option.ne_none_iff_exists'.mp hjump
  obtain ⟨-, target, htarget, j, hj⟩ := h.lands (List.mem_toArray.mp hentry) hdistance
  cases hend.symm.trans htarget
  have hwithin := Instruction.read_within (h.fills.mem hj).1
  have hpos := j.size_pos
  have hsize : f.chunk.size = f.chunk.code.size := rfl
  omega

/-- The bytes of an instruction that stands at a place have one line. -/
theorem exists_line (h : code.Makes f) {place : Nat} {i : Instruction}
    (hi : (place, i) ∈ Item.row 0 code.items) :
    ∃ line, ∀ k < i.size, f.chunk.line? (place + k) = some line := by
  obtain ⟨item, rfl, hlines⟩ := Item.Along.of_mem_row (Item.along_lines code.items) hi
  refine ⟨item.line, fun k hk => ?_⟩
  rw [Chunk.line?, h.chunk, List.getElem?_toArray]
  exact hlines k hk

end Fragment.Makes

namespace Function

variable {f g : Function} {place : Nat} {i : Instruction}

theorem Compiled.all (h : f.Compiled) (hg : g ∈ f.all) : g.Compiled := by
  obtain ⟨source, script, hcompile, hf⟩ := h
  exact ⟨source, script, hcompile, mem_all_trans hg script hf⟩

theorem Compiled.makes (h : f.Compiled) : ∃ code : Fragment, code.Makes f := by
  obtain ⟨name, r, hlegal, rfl⟩ := h.written
  exact hlegal.makes

theorem Compiled.verified (h : f.Compiled) : f.Verified := by
  refine verify_eq_ok.mpr fun g hg => ?_
  obtain ⟨code, hcode⟩ := (h.all hg).makes
  exact Chunk.verify_eq_ok.mpr ⟨_, hcode.instructions, hcode.sound⟩

theorem Compiled.jumpsInside (h : f.Compiled) : f.JumpsInside := by
  intro g hg
  obtain ⟨code, hcode⟩ := (h.all hg).makes
  exact hcode.jumpsInside

/-- Compiled functions, with the starts of their instructions. -/
theorem closed_compiled : Closed Compiled fun f place => f.chunk.IsStart place where
  entry h := closed_inside.entry ⟨h.verified, h.jumpsInside⟩
  constant h hg := h.constant hg
  inside h hstart := closed_inside.inside ⟨h.verified, h.jumpsInside⟩ hstart

/-- The bytes of an instruction of a compiled function have one line. -/
theorem Compiled.exists_line (h : f.Compiled) (hstart : f.chunk.IsStart place)
    (hread : Instruction.read f.chunk.code place = .instruction i) :
    ∃ line, ∀ k < i.size, f.chunk.line? (place + k) = some line := by
  obtain ⟨code, hcode⟩ := h.makes
  obtain ⟨j, hj⟩ := hcode.isStart_iff.mp hstart
  cases hread.symm.trans (hcode.fills.mem hj).1
  exact hcode.exists_line hj

/-- Every instruction of a compiled function but the first begins where another one ends. -/
theorem Compiled.exists_previous (h : f.Compiled) (hstart : f.chunk.IsStart place) (hpos : 0 < place) :
    ∃ before j, f.chunk.IsStart before ∧ Instruction.read f.chunk.code before = .instruction j ∧
      before + j.size = place := by
  obtain ⟨code, hcode⟩ := h.makes
  obtain ⟨i, hi⟩ := hcode.isStart_iff.mp hstart
  obtain ⟨before, j, hj, hplace⟩ := hcode.fills.previous hi hpos
  exact ⟨before, j, hcode.isStart_iff.mpr ⟨j, hj⟩, (hcode.fills.mem hj).1, hplace⟩

end Function

end Lox
