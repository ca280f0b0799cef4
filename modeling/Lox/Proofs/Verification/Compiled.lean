import Lox.Proofs.Verification.Reading

/-! # Compiled code is verified

The code that the compiler writes is a row of instructions with the places where they stand. Since it flows,
every jump of it leads to a place that has a height, which is the start of an instruction and never the end of
the code; so the verifier accepts it. -/

namespace Lox

/-! ### Rows -/

/-- Items with the places where they stand from `offset` on. -/
def Item.row : (offset : Nat) → List Item → List (Nat × Instruction)
  | _, [] => []
  | offset, item :: items => (offset, item.instruction) :: row (offset + item.size) items

namespace Item

theorem row_append (offset : Nat) (items : List Item) (last : Item) :
    ∃ place, row offset (items ++ [last]) = row offset items ++ [(place, last.instruction)] := by
  induction items generalizing offset with
  | nil => exact ⟨offset, rfl⟩
  | cons item items ih =>
    obtain ⟨place, hrow⟩ := ih (offset + item.size)
    refine ⟨place, ?_⟩
    rw [List.cons_append, row, hrow]
    rfl

/-- What holds along a list of items holds of its row. -/
theorem Along.of_mem_row {P : Nat → Item → Prop} {offset : Nat} {items : List Item} (h : Along P offset items)
    {place : Nat} {i : Instruction} (hi : (place, i) ∈ row offset items) :
    ∃ item, item.instruction = i ∧ P place item := by
  induction items generalizing offset with
  | nil => cases hi
  | cons item items ih =>
    rcases List.mem_cons.mp hi with heq | hi
    · cases heq
      exact ⟨item, rfl, h.1⟩
    · exact ih h.2 hi

theorem along_row (offset : Nat) (items : List Item) :
    Along (fun place item => (place, item.instruction) ∈ row offset items) offset items := by
  have hrest : ∀ (place : Nat) (rest : List Item), (∀ entry ∈ row place rest, entry ∈ row offset items) →
      Along (fun place item => (place, item.instruction) ∈ row offset items) place rest := by
    intro place rest
    induction rest generalizing place with
    | nil => exact fun _ => trivial
    | cons item rest ih =>
      intro hsubset
      exact ⟨hsubset _ List.mem_cons_self,
        ih _ fun entry hentry => hsubset entry (List.mem_cons_of_mem _ hentry)⟩
  exact hrest offset items fun _ hentry => hentry

/-- The row of items that are read where they stand, with their constants, fills a chunk that they make. -/
theorem fills_row {chunk : Chunk} {offset : Nat} {items : List Item}
    (h : Along (fun place item => Instruction.read chunk.code place = .instruction item.instruction ∧
      chunk.constantFlaw? place item.instruction = none) offset items)
    (hsize : offset + (items.map Item.size).sum = chunk.size) : chunk.Fills offset (row offset items) := by
  induction items generalizing offset with
  | nil => exact hsize
  | cons item items ih =>
    rw [List.map_cons, List.sum_cons, ← Nat.add_assoc] at hsize
    exact ⟨rfl, h.1.1, h.1.2, ih h.2 hsize⟩

end Item

/-! ### Instructions that flow -/

namespace Instruction

variable {chunk : Chunk} {depth : Nat → Option Nat} {offset height : Nat} {i : Instruction}

theorem OperandsFit.constantFlaw? (h : i.OperandsFit chunk offset height) :
    chunk.constantFlaw? offset i = none := by
  unfold Chunk.constantFlaw?
  cases i with
  | constant index =>
    obtain ⟨constant, hconstant⟩ := h
    simp [hconstant]
  | getGlobal index | defineGlobal index | setGlobal index =>
    obtain ⟨name, hname⟩ := h
    simp [hname]
  | _ => rfl

/-- A jump that flows goes over a distance that the compiler allows, to a place that has a height. -/
theorem Flows.target (h : i.Flows chunk depth offset height) {distance : UInt16}
    (hjump : i.distance? = some distance) :
    distance.toNat ≤ Compiler.maxJump ∧
      ∃ target, i.target? offset = some target ∧ ∃ height', depth target = some height' := by
  have hoperands := h.operands
  cases i with
  | jump d =>
    cases hjump
    exact ⟨hoperands, _, rfl, _, h.leads _ (List.mem_singleton_self _)⟩
  | jumpIfFalse d =>
    cases hjump
    exact ⟨hoperands, _, rfl, _, h.leads _ (List.mem_cons_of_mem _ (List.mem_singleton_self _))⟩
  | loop d =>
    cases hjump
    exact ⟨hoperands.2, _, if_pos hoperands.1, _, h.leads _ (List.mem_singleton_self _)⟩
  | _ => cases hjump

end Instruction

/-! ### Functions -/

namespace Fragment.Makes

variable {code : Fragment} {f : Function}

theorem fills (h : code.Makes f) : f.chunk.Fills 0 (Item.row 0 code.items) := by
  have hread : code.Along (fun place item => Instruction.read f.chunk.code place =
        .instruction item.instruction) 0 := by
    rw [h.chunk]
    exact Item.along_read code.items
  refine Item.fills_row ((hread.and h.flows).mono fun place item hitem =>
      ⟨hitem.1, hitem.2.operands.constantFlaw?⟩) ?_
  rw [Nat.zero_add, h.chunk, Chunk.size, List.size_toArray, Fragment.length_bytes]
  rfl

/-- Every jump in the row goes over a distance that the compiler allows, to the start of an instruction. -/
theorem lands (h : code.Makes f) {offset : Nat} {i : Instruction} (hi : (offset, i) ∈ Item.row 0 code.items)
    {distance : UInt16} (hjump : i.distance? = some distance) : distance.toNat ≤ Compiler.maxJump ∧
      ∃ target, i.target? offset = some target ∧ ∃ j, (target, j) ∈ Item.row 0 code.items := by
  obtain ⟨item, rfl, hflows⟩ := Item.Along.of_mem_row h.flows hi
  obtain ⟨hdistance, target, htarget, height, hheight⟩ := hflows.target hjump
  obtain ⟨landing, -, hlanding⟩ := Item.Along.exists_of_heightAt (Item.along_row 0 code.items) hheight
  rw [Nat.zero_add] at hlanding
  exact ⟨hdistance, target, htarget, landing.instruction, hlanding⟩

theorem sound (h : code.Makes f) : f.chunk.Sound (Item.row 0 code.items) where
  lines := by
    rw [h.chunk, List.size_toArray, List.size_toArray, Fragment.length_bytes, Fragment.length_lines]
  fills := h.fills
  lands offset i hi hjump := by
    obtain ⟨distance, hdistance⟩ := Option.ne_none_iff_exists'.mp hjump
    obtain ⟨-, target, htarget, hstart⟩ := h.lands hi hdistance
    exact ⟨target, htarget, Or.inr hstart⟩
  last := by
    obtain ⟨before, line, height, rfl⟩ := h.last
    obtain ⟨place, hrow⟩ := Item.row_append 0 before.items ⟨line, height, .ret⟩
    exact ⟨_, place, hrow⟩

end Fragment.Makes

/-- Everything that the compiler writes passes the verifier: the script and all functions inside it, whose
    constants can be counted by a byte, and whose jumps go over the distances that the compiler allows and
    never to the end of the code. -/
theorem compile_verified {source : String} {script : Function} (h : compile source = .ok script) :
    script.verify = .ok () ∧ ∀ f ∈ script.all, f.chunk.constants.length ≤ 256 ∧
      ∃ found, f.chunk.instructions = .ok found ∧ ∀ offset i distance, (offset, i) ∈ found →
      i.distance? = some distance →
        distance.toNat ≤ 65025 ∧ i.target? offset ≠ some f.chunk.size := by
  have hmakes : ∀ f ∈ script.all, ∃ code : Fragment, code.Makes f := by
    intro f hf
    obtain ⟨name, r, hlegal, rfl⟩ := Function.Compiled.written ⟨source, script, h, hf⟩
    exact hlegal.makes
  refine ⟨Function.verify_eq_ok.mpr fun f hf => ?_, fun f hf => ?_⟩
  · obtain ⟨code, hcode⟩ := hmakes f hf
    exact Chunk.verify_eq_ok.mpr ⟨(Item.row 0 code.items).toArray, Chunk.instructions_eq_ok.mpr hcode.fills,
      hcode.sound⟩
  · obtain ⟨code, hcode⟩ := hmakes f hf
    refine ⟨hcode.room, (Item.row 0 code.items).toArray, Chunk.instructions_eq_ok.mpr hcode.fills, ?_⟩
    intro offset i distance hi hjump
    obtain ⟨hdistance, target, htarget, j, hj⟩ := hcode.lands (List.mem_toArray.mp hi) hjump
    refine ⟨hdistance, fun hend => ?_⟩
    have hwithin := Instruction.read_within (hcode.fills.mem hj).1
    have hpos := j.size_pos
    rw [htarget] at hend
    cases hend
    have hsize : f.chunk.size = f.chunk.code.size := rfl
    omega

/-- A program with every kind of jump, also inside a function. -/
theorem compile_verified_jumps : ∃ script,
    compile
      "fun f(a) { while (a) { if (a and f) return a; else a = nil; } } for (var i = true; i or f; i = nil) f(i);" =
      .ok script ∧ script.all.length = 2 ∧ script.verify = .ok () ∧ ∀ f ∈ script.all,
      f.chunk.constants.length ≤ 256 := by
  have hcompiles : ((compile
      "fun f(a) { while (a) { if (a and f) return a; else a = nil; } } for (var i = true; i or f; i = nil) f(i);"
      ).toOption.any fun script => script.all.length = 2) = true := by decide +kernel
  obtain ⟨script, hcompile, hlength⟩ := exists_ok_of_any hcompiles
  obtain ⟨hverify, hall⟩ := compile_verified hcompile
  exact ⟨script, hcompile, of_decide_eq_true hlength, hverify, fun f hf => (hall f hf).1⟩

end Lox
