import Lox.Proofs.Verification.Sweep

/-! # Well-formed code

A chunk is well formed if its code is the bytes of some whole instructions, one after the other, of which the
last returns, with a line for each byte, and if the constants, names and jump targets of these instructions
are there. The verifier accepts exactly the functions whose chunks are all well formed. -/

namespace Lox

namespace Chunk

/-- A place between instructions that stand one after the other from the first byte on: the start of one of
    them, or the end of the last. -/
def Boundary (row : List Instruction) (place : Nat) : Prop :=
  ∃ before after, row = before ++ after ∧ place = (before.flatMap Instruction.bytes).length

/-- The code is made of the instructions of a row, and what they refer to is there. -/
structure MadeOf (chunk : Chunk) (row : List Instruction) : Prop where
  lines : chunk.lines.size = chunk.code.size
  code : chunk.code.toList = row.flatMap Instruction.bytes
  last : row.getLast? = some .ret
  constants : ∀ index, .constant index ∈ row → index.toNat < chunk.constants.length
  names : ∀ index, .getGlobal index ∈ row ∨ .defineGlobal index ∈ row ∨ .setGlobal index ∈ row →
    ∃ name, chunk.constants[index.toNat]? = some (.string name)
  forward : ∀ before after distance,
    row = before ++ .jump distance :: after ∨ row = before ++ .jumpIfFalse distance :: after →
      Boundary row ((before.flatMap Instruction.bytes).length + 3 + distance.toNat)
  backward : ∀ before after distance, row = before ++ .loop distance :: after →
    ∃ target, target + distance.toNat = (before.flatMap Instruction.bytes).length + 3 ∧ Boundary row target

/-- The code is made of whole instructions. -/
def WellFormed (chunk : Chunk) : Prop := ∃ row, chunk.MadeOf row

/-! ### Instructions and their places -/

/-- Instructions with the places where they stand, from `offset` on. -/
def placed : (offset : Nat) → List Instruction → List (Nat × Instruction)
  | _, [] => []
  | offset, i :: row => (offset, i) :: placed (offset + i.size) row

variable {chunk : Chunk} {offset place : Nat} {i : Instruction} {row : List Instruction}

theorem mem_placed : (place, i) ∈ placed offset row ↔ ∃ before after, row = before ++ i :: after ∧
    place = offset + (before.flatMap Instruction.bytes).length := by
  induction row generalizing offset with
  | nil => simp [placed]
  | cons j row ih =>
    rw [placed, List.mem_cons, ih]
    constructor
    · rintro (heq | ⟨before, after, rfl, rfl⟩)
      · cases heq
        exact ⟨[], row, rfl, rfl⟩
      · refine ⟨j :: before, after, rfl, ?_⟩
        rw [List.flatMap_cons, List.length_append, Instruction.length_bytes, Nat.add_assoc]
    · rintro ⟨before, after, hrow, rfl⟩
      cases before with
      | nil =>
        cases hrow
        exact Or.inl rfl
      | cons k before =>
        cases hrow
        refine Or.inr ⟨before, after, rfl, ?_⟩
        rw [List.flatMap_cons, List.length_append, Instruction.length_bytes, Nat.add_assoc]

/-- The places between instructions are the starts of instructions and the end of the code. -/
theorem boundary_iff : Boundary row place ↔
    place = (row.flatMap Instruction.bytes).length ∨ ∃ i, (place, i) ∈ placed 0 row := by
  simp only [mem_placed, Nat.zero_add]
  constructor
  · rintro ⟨before, after, rfl, rfl⟩
    cases after with
    | nil => exact Or.inl (by rw [List.append_nil])
    | cons i after => exact Or.inr ⟨i, before, after, rfl, rfl⟩
  · rintro (rfl | ⟨i, before, after, rfl, rfl⟩)
    · exact ⟨row, [], (List.append_nil row).symm, rfl⟩
    · exact ⟨before, i :: after, rfl, rfl⟩

theorem Fills.eq_placed {items : List (Nat × Instruction)} (h : chunk.Fills offset items) :
    items = placed offset (items.map (·.2)) := by
  induction items generalizing offset with
  | nil => rfl
  | cons entry items ih =>
    obtain ⟨rfl, -, -, hrest⟩ := h
    rw [List.map_cons, placed, ← ih hrest]

/-- Where an instruction is read, the code goes on with its bytes. -/
theorem drop_of_read (h : Instruction.read chunk.code offset = .instruction i) :
    chunk.code.toList.drop offset = i.bytes ++ chunk.code.toList.drop (offset + i.size) := by
  refine List.ext_getElem? fun k => ?_
  rw [List.getElem?_drop, Array.getElem?_toList]
  rcases Nat.lt_or_ge k i.size with hk | hk
  · rw [List.getElem?_append_left (by rwa [Instruction.length_bytes]), Instruction.getElem?_of_read h hk]
  · rw [List.getElem?_append_right (by rwa [Instruction.length_bytes]), List.getElem?_drop,
      Instruction.length_bytes, Array.getElem?_toList, Nat.add_assoc, Nat.add_sub_cancel' hk]

theorem read_of_drop {rest : List UInt8} (h : chunk.code.toList.drop offset = i.bytes ++ rest) :
    Instruction.read chunk.code offset = .instruction i := by
  have hoffset : (chunk.code.toList.take offset).length = offset := by
    have hlength := congrArg List.length h
    have hpos := i.size_pos
    rw [List.length_drop, List.length_append, Instruction.length_bytes] at hlength
    rw [List.length_take]
    omega
  have hread := Instruction.read_append (chunk.code.toList.take offset) i rest
  rwa [List.append_assoc, ← h, List.take_append_drop, Array.toArray_toList, hoffset] at hread

/-! ### Constants -/

theorem constantFlaw?_eq_none : chunk.constantFlaw? offset i = none ↔
    (∀ index, i = .constant index → index.toNat < chunk.constants.length) ∧
      ∀ index, i = .getGlobal index ∨ i = .defineGlobal index ∨ i = .setGlobal index →
        ∃ name, chunk.constants[index.toNat]? = some (.string name) := by
  cases i with
  | constant index => simp [constantFlaw?, constant?]
  | getGlobal index | defineGlobal index | setGlobal index =>
    simp only [constantFlaw?, constant?, reduceCtorEq, false_or, or_false, Instruction.getGlobal.injEq,
      Instruction.defineGlobal.injEq, Instruction.setGlobal.injEq, IsEmpty.forall_iff, implies_true, true_and,
      forall_eq']
    cases chunk.constants[index.toNat]? with
    | none => simp
    | some constant => cases constant <;> simp
  | _ => simp [constantFlaw?]

theorem fills_placed_iff (hoffset : offset ≤ chunk.size) : chunk.Fills offset (placed offset row) ↔
    chunk.code.toList.drop offset = row.flatMap Instruction.bytes ∧
      ∀ i ∈ row, ∀ place, chunk.constantFlaw? place i = none := by
  induction row generalizing offset with
  | nil =>
    have hend : offset = chunk.size ↔ chunk.code.toList.drop offset = [] := by
      rw [List.drop_eq_nil_iff, Array.length_toList]
      exact ⟨fun h => Nat.le_of_eq h.symm, fun h => Nat.le_antisymm hoffset h⟩
    simpa [placed, Fills] using hend
  | cons i row ih =>
    -- A constant is there or not, wherever its instruction stands.
    have hplace : ∀ place, chunk.constantFlaw? offset i = none ↔ chunk.constantFlaw? place i = none :=
      fun place => by
      rw [constantFlaw?_eq_none, constantFlaw?_eq_none]
    rw [placed, Fills, List.flatMap_cons, List.forall_mem_cons]
    constructor
    · rintro ⟨-, hread, hflaw, hrest⟩
      obtain ⟨hdrop, hflaws⟩ := (ih (Instruction.read_within hread)).mp hrest
      exact ⟨by rw [drop_of_read hread, hdrop], fun place => (hplace place).mp hflaw, hflaws⟩
    · rintro ⟨hdrop, hflaw, hflaws⟩
      have hread := read_of_drop hdrop
      refine ⟨rfl, hread, hflaw offset, (ih (Instruction.read_within hread)).mpr ⟨?_, hflaws⟩⟩
      rw [drop_of_read hread] at hdrop
      exact List.append_cancel_left hdrop

/-! ### Chunks -/

/-- Every jump of a row lands if forward jumps and loops do. -/
theorem lands_iff {size : Nat} (hsize : size = (row.flatMap Instruction.bytes).length) :
    (∀ place i, (place, i) ∈ placed 0 row → i.distance? ≠ none →
      ∃ target, i.target? place = some target ∧ (target = size ∨ ∃ j, (target, j) ∈ placed 0 row)) ↔
    (∀ before after distance, row = before ++ .jump distance :: after ∨
      row = before ++ .jumpIfFalse distance :: after →
      Boundary row ((before.flatMap Instruction.bytes).length + 3 + distance.toNat)) ∧
    ∀ before after distance, row = before ++ .loop distance :: after →
      ∃ target, target + distance.toNat = (before.flatMap Instruction.bytes).length + 3 ∧
      Boundary row target := by
  subst hsize
  simp only [← boundary_iff]
  simp only [mem_placed, Nat.zero_add]
  constructor
  · intro h
    refine ⟨fun before after distance hrow => ?_, fun before after distance hrow => ?_⟩
    · rcases hrow with hrow | hrow
      · obtain ⟨target, htarget, hboundary⟩ := h _ _ ⟨before, after, hrow, rfl⟩ (Option.some_ne_none distance)
        cases htarget
        exact hboundary
      · obtain ⟨target, htarget, hboundary⟩ := h _ _ ⟨before, after, hrow, rfl⟩ (Option.some_ne_none distance)
        cases htarget
        exact hboundary
    · obtain ⟨target, htarget, hboundary⟩ := h _ _ ⟨before, after, hrow, rfl⟩ (Option.some_ne_none distance)
      rw [Instruction.target?] at htarget
      split at htarget <;> rename_i hback <;> cases htarget
      exact ⟨_, Nat.sub_add_cancel hback, hboundary⟩
  · rintro ⟨hforward, hbackward⟩ place i ⟨before, after, hrow, rfl⟩ hjump
    cases i with
    | jump distance => exact ⟨_, rfl, hforward before after distance (Or.inl hrow)⟩
    | jumpIfFalse distance => exact ⟨_, rfl, hforward before after distance (Or.inr hrow)⟩
    | loop distance =>
      obtain ⟨target, htarget, hboundary⟩ := hbackward before after distance hrow
      refine ⟨target, ?_, hboundary⟩
      rw [Instruction.target?, ← htarget, if_pos (Nat.le_add_left _ _), Nat.add_sub_cancel]
    | _ => exact absurd rfl hjump

theorem map_placed (offset : Nat) (row : List Instruction) : (placed offset row).map (·.2) = row := by
  induction row generalizing offset with
  | nil => rfl
  | cons i row ih => rw [placed, List.map_cons, ih]

/-- No constant of a row is missing if those of its instructions with a constant or a name are there. -/
theorem constantFlaws_iff : (∀ i ∈ row, ∀ place, chunk.constantFlaw? place i = none) ↔
    (∀ index, .constant index ∈ row → index.toNat < chunk.constants.length) ∧
      ∀ index, .getGlobal index ∈ row ∨ .defineGlobal index ∈ row ∨ .setGlobal index ∈ row →
        ∃ name, chunk.constants[index.toNat]? = some (.string name) := by
  simp only [constantFlaw?_eq_none]
  constructor
  · intro h
    refine ⟨fun index hi => (h _ hi 0).1 index rfl, ?_⟩
    rintro index (hi | hi | hi)
    · exact (h _ hi 0).2 index (Or.inl rfl)
    · exact (h _ hi 0).2 index (Or.inr (Or.inl rfl))
    · exact (h _ hi 0).2 index (Or.inr (Or.inr rfl))
  · rintro ⟨hconstants, hnames⟩ i hi -
    refine ⟨fun index heq => hconstants index (heq ▸ hi), ?_⟩
    rintro index (rfl | rfl | rfl)
    · exact hnames index (Or.inl hi)
    · exact hnames index (Or.inr (Or.inl hi))
    · exact hnames index (Or.inr (Or.inr hi))

theorem last_placed_iff : (∃ before offset, placed 0 row = before ++ [(offset, .ret)]) ↔
    row.getLast? = some .ret := by
  conv_rhs => rw [← map_placed 0 row]
  rw [List.getLast?_map, Option.map_eq_some_iff]
  constructor
  · rintro ⟨before, offset, hrow⟩
    exact ⟨(offset, .ret), by rw [hrow, List.getLast?_concat], rfl⟩
  · rintro ⟨⟨offset, i⟩, hlast, rfl⟩
    obtain ⟨before, hrow⟩ := List.getLast?_eq_some_iff.mp hlast
    exact ⟨before, offset, hrow⟩

/-- A sound row is one of which the chunk is made. -/
theorem sound_placed_iff : chunk.Sound (placed 0 row) ↔ chunk.MadeOf row := by
  have hsize : chunk.code.toList = row.flatMap Instruction.bytes →
      chunk.size = (row.flatMap Instruction.bytes).length :=
    fun hcode => by rw [← hcode, Array.length_toList, size]
  constructor
  · rintro ⟨hlines, hfills, hlands, hret⟩
    obtain ⟨hcode, hconstants⟩ := (fills_placed_iff (Nat.zero_le _)).mp hfills
    rw [List.drop_zero] at hcode
    obtain ⟨hconstants, hnames⟩ := constantFlaws_iff.mp hconstants
    obtain ⟨hforward, hbackward⟩ := (lands_iff (hsize hcode)).mp hlands
    exact ⟨hlines.symm, hcode, last_placed_iff.mp hret, hconstants, hnames, hforward, hbackward⟩
  · rintro ⟨hlines, hcode, hret, hconstants, hnames, hforward, hbackward⟩
    refine ⟨hlines.symm, (fills_placed_iff (Nat.zero_le _)).mpr ⟨hcode,
      constantFlaws_iff.mpr ⟨hconstants, hnames⟩⟩, ?_, last_placed_iff.mpr hret⟩
    exact (lands_iff (hsize hcode)).mpr ⟨hforward, hbackward⟩

/-- The verifier accepts a chunk exactly if it is well formed. -/
theorem verify_eq_ok_iff : chunk.verify = .ok () ↔ chunk.WellFormed := by
  rw [verify_eq_ok, WellFormed]
  constructor
  · rintro ⟨found, -, hsound⟩
    rw [hsound.fills.eq_placed] at hsound
    exact ⟨_, sound_placed_iff.mp hsound⟩
  · rintro ⟨row, hrow⟩
    have hsound := sound_placed_iff.mpr hrow
    exact ⟨(placed 0 row).toArray, instructions_eq_ok.mpr hsound.fills, hsound⟩

instance (chunk : Chunk) : Decidable chunk.WellFormed :=
  decidable_of_iff (chunk.verify = .ok ()) verify_eq_ok_iff

/-- A jump to the operand of an instruction is none to an instruction. -/
example : ¬Chunk.WellFormed
    { code := #[0x14, 0x00, 0x01, 0x00, 0x00, 0x18], lines := .replicate 6 1, constants := [.nil] } := by
  decide +kernel

end Chunk

/-! ### Functions -/

namespace Function

/-- Checks each function in a single sweep; `none` if an access is out of range. -/
def sweepEach? : List Function → Option (Except Defect Unit)
  | [] => some (.ok ())
  | function :: functions => do
    match ← function.chunk.sweep? with
    | .error flaw => some (.error ⟨function.title, flaw⟩)
    | .ok () => sweepEach? functions

/-- Checks a function and every function inside it in a sweep each; `none` if an access is out of range. -/
def sweep? (function : Function) : Option (Except Defect Unit) := sweepEach? function.all

theorem sweepEach?_eq (functions : List Function) : sweepEach? functions = some (verifyEach functions) := by
  induction functions with
  | nil => rfl
  | cons f functions ih =>
    rw [sweepEach?, verifyEach, f.chunk.sweep?_eq]
    cases f.chunk.verify with
    | error flaw => rfl
    | ok => exact ih

/-- The verifier accepts a function exactly if the code of the function and of every function inside is well
    formed, and no access to code or marks that it makes on the way is out of range. -/
theorem verify_decides (f : Function) :
    (f.verify = .ok () ↔ ∀ g ∈ f.all, g.chunk.WellFormed) ∧ f.sweep? = some f.verify := by
  refine ⟨?_, sweepEach?_eq f.all⟩
  rw [verify_eq_ok]
  exact forall₂_congr fun g _ => Chunk.verify_eq_ok_iff

end Function

end Lox
