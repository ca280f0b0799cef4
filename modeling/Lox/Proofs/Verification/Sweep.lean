import Lox.Proofs.Verification

/-! # The verifier in one pass

The verifier can do its work in a single sweep over the code: it marks every start of an instruction when it
comes by, keeps the jumps with their targets, and looks at the targets once all marks are set. Here every
access to the code or to the marks that has to be in range is checked, and the sweep is stopped if one is not.
No code stops it, and it finds what the verifier finds. -/

namespace Lox

/-! ### What is read -/

theorem Opcode.byte_of_ofByte? {byte : UInt8} {op : Opcode} (h : ofByte? byte = some op) : op.byte = byte := by
  have hbytes : ∀ place : Fin all.size, all[place].byte = UInt8.ofNat place.val := by decide
  obtain ⟨hlt, hop⟩ := Array.getElem?_eq_some_iff.mp h
  rw [← hop]
  exact (hbytes ⟨byte.toNat, hlt⟩).trans (UInt8.ofNat_toNat ..)

namespace Instruction

variable {code : Array UInt8} {offset : Nat} {i : Instruction} {op : Opcode}

/-- Where an instruction is read, its bytes stand. -/
theorem getElem?_of_read (h : read code offset = .instruction i) {k : Nat} (hk : k < i.size) :
    code[offset + k]? = i.bytes[k]? := by
  unfold read at h
  split at h
  · cases h
  · rename_i tag htag
    split at h
    · cases h
    · rename_i op hop
      obtain rfl := Opcode.byte_of_ofByte? hop
      cases op with
      | nil | trueValue | falseValue | pop | equal | greater | less | add | subtract | multiply | divide
      | logicalNot | negate
      | print | ret =>
        cases h
        obtain rfl : k = 0 := Nat.lt_one_iff.mp hk
        exact htag
      | constant | getLocal | setLocal | getGlobal | defineGlobal | setGlobal | call =>
        dsimp only at h
        split at h
        · rename_i hoperand
          cases h
          match k, hk with
          | 0, _ => exact htag
          | 1, _ => exact hoperand
        · cases h
      | jump | jumpIfFalse | loop =>
        dsimp only at h
        split at h
        · rename_i high low hhigh hlow
          cases h
          match k, hk with
          | 0, _ => exact htag
          | 1, _ =>
            rw [hhigh]
            exact congrArg some (highByte_wordOfBytes high low).symm
          | 2, _ =>
            rw [hlow]
            exact congrArg some (lowByte_wordOfBytes high low).symm
        · cases h

/-- The distance of a jump stands after its opcode. -/
theorem word?_of_read {chunk : Chunk} {distance : UInt16} (h : read chunk.code offset = .instruction i)
    (hjump : i.distance? = some distance) : chunk.word? (offset + 1) = some distance := by
  have hbytes : i.size = 3 ∧ i.bytes[1]? = some (highByte distance) ∧
      i.bytes[2]? = some (lowByte distance) := by
    cases i <;> cases hjump <;> exact ⟨rfl, rfl, rfl⟩
  obtain ⟨hsize, hhigh, hlow⟩ := hbytes
  unfold Chunk.word?
  rw [getElem?_of_read h (by omega), hhigh, show offset + 1 + 1 = offset + 2 from rfl,
    getElem?_of_read h (by omega), hlow]
  exact congrArg some (wordOfBytes_highByte_lowByte distance)

theorem truncated_of_read (h : read code offset = .truncated op) :
    code[offset]? = some op.byte ∧ code.size < offset + 1 + op.width := by
  unfold read at h
  split at h
  · cases h
  · rename_i tag htag
    split at h
    · cases h
    · rename_i op hop
      obtain rfl := Opcode.byte_of_ofByte? hop
      cases op with
      | nil | trueValue | falseValue | pop | equal | greater | less | add | subtract | multiply | divide
      | logicalNot | negate
      | print | ret => cases h
      | constant | getLocal | setLocal | getGlobal | defineGlobal | setGlobal | call =>
        dsimp only at h
        split at h
        · cases h
        · rename_i hnone
          cases h
          exact ⟨htag, Nat.lt_succ_of_le (Array.getElem?_eq_none_iff.mp hnone)⟩
      | jump | jumpIfFalse | loop =>
        dsimp only at h
        split at h
        · cases h
        · rename_i hmissing
          cases h
          refine ⟨htag, Nat.lt_of_not_le fun hle => ?_⟩
          rw [Opcode.width] at hle
          exact hmissing _ _ (Array.getElem?_eq_getElem (by omega)) (Array.getElem?_eq_getElem (by omega))

theorem unknown_of_read {byte : UInt8} (h : read code offset = .unknown byte) :
    code[offset]? = some byte ∧ Opcode.ofByte? byte = none := by
  unfold read at h
  split at h
  · cases h
  · rename_i tag htag
    split at h
    · rename_i hop
      cases h
      exact ⟨htag, hop⟩
    · rename_i op _
      cases op with
      | nil | trueValue | falseValue | pop | equal | greater | less | add | subtract | multiply | divide
      | logicalNot | negate
      | print | ret => cases h
      | constant | getLocal | setLocal | getGlobal | defineGlobal | setGlobal | call | jump | jumpIfFalse
      | loop =>
        dsimp only at h
        split at h <;> cases h

end Instruction

namespace Chunk

/-- What a sweep has collected. -/
structure Sweep where
  /-- The places at which an instruction starts, and the end of the code. -/
  marks : Array Bool
  /-- The jumps with their places and targets; a loop back to before the first byte has no target. -/
  jumps : Array (Nat × Opcode × Option Nat)
  /-- The last opcode. -/
  last : Option Opcode

/-- Marks a place; `none` if it is out of range. -/
def mark? (marks : Array Bool) (place : Nat) : Option (Array Bool) :=
  if place < marks.size then some (marks.setIfInBounds place true) else none

/-- Sweeps over the instruction at `offset` and gives the place of the next one; `none` if an
    access is out of range. -/
def sweepStep? (chunk : Chunk) (offset : Nat) (s : Sweep) : Option (Except Flaw (Nat × Sweep)) := do
  let marks ← mark? s.marks offset
  let byte ← chunk.code[offset]?
  match Opcode.ofByte? byte with
  | none => some (.error (.unknownOpcode offset byte))
  | some op =>
    let next := offset + 1 + op.width
    if chunk.size < next then some (.error (.truncatedOperand offset op))
    else match op with
      | .constant | .getGlobal | .defineGlobal | .setGlobal => do
        let index ← chunk.code[offset + 1]?
        match chunk.constant? index with
        | none => some (.error (.constantRange offset index))
        | some constant =>
          if op ≠ .constant ∧ constant.string? = none then some (.error (.nameNotString offset op))
          else some (.ok (next, { s with marks, last := some op }))
      | .jump | .jumpIfFalse | .loop =>
        let distance := ((chunk.word? (offset + 1)).map UInt16.toNat).getD 0
        let target :=
          if op = .loop then if distance ≤ next then some (next - distance) else none
          else some (next + distance)
        some (.ok (next, { marks, jumps := s.jumps.push (offset, op, target), last := some op }))
      | _ => some (.ok (next, { s with marks, last := some op }))

/-- Sweeps over the code from `offset` on, over at most `count` instructions. -/
def sweepFrom? (chunk : Chunk) (offset : Nat) (s : Sweep) : Nat → Option (Except Flaw Sweep)
  | 0 => some (.ok s)
  | count + 1 =>
    if offset < chunk.size then do
      match ← chunk.sweepStep? offset s with
      | .error flaw => some (.error flaw)
      | .ok (next, s) => chunk.sweepFrom? next s count
    else some (.ok s)

/-- Whether a jump has a target that is marked. -/
def Sweep.reaches (s : Sweep) (target : Option Nat) : Bool := target.any fun place => s.marks[place]?.getD false

/-- Checks the code of one function in a single sweep; `none` if an access is out of range. -/
def sweep? (chunk : Chunk) : Option (Except Flaw Unit) :=
  if chunk.code.size = chunk.lines.size then do
    let marks ← mark? (Array.replicate (chunk.size + 1) false) chunk.size
    match ← chunk.sweepFrom? 0 { marks, jumps := #[], last := none } chunk.size with
    | .error flaw => some (.error flaw)
    | .ok s =>
      match s.jumps.find? fun jump => !s.reaches jump.2.2 with
      | some (offset, op, _) => some (.error (.jumpTarget offset op))
      | none => some (if s.last = some .ret then .ok () else .error .missingReturn)
  else some (.error (.lineTable chunk.code.size chunk.lines.size))

/-! ### What a sweep has collected -/

/-- The entry of a jump among the jumps of a sweep. -/
def jumpOf? (entry : Nat × Instruction) : Option (Nat × Opcode × Option Nat) :=
  entry.2.distance?.map fun _ => (entry.1, entry.2.opcode, entry.2.target? entry.1)

/-- What a sweep has collected when it has come over the given instructions. -/
def sweepOf (chunk : Chunk) (found : Array (Nat × Instruction)) : Sweep where
  marks := chunk.landings found
  jumps := found.filterMap jumpOf?
  last := found.back?.map (·.2.opcode)

variable {chunk : Chunk} {found : Array (Nat × Instruction)} {offset : Nat}

theorem size_foldl_mark (items : List (Nat × Instruction)) (marks : Array Bool) :
    (items.foldl (fun marks (entry : Nat × Instruction) => marks.setIfInBounds entry.1 true) marks).size =
      marks.size := by
  induction items generalizing marks with
  | nil => rfl
  | cons entry items ih => rw [List.foldl_cons, ih, Array.size_setIfInBounds]

theorem size_landings (chunk : Chunk) (found : Array (Nat × Instruction)) :
    (chunk.landings found).size = chunk.size + 1 := by
  obtain ⟨items⟩ := found
  rw [landings, List.foldl_toArray, size_foldl_mark, Array.size_setIfInBounds, Array.size_replicate]

theorem landings_push (i : Instruction) :
    chunk.landings (found.push (offset, i)) = (chunk.landings found).setIfInBounds offset true := by
  rw [landings, landings, Array.foldl_push]

theorem mark?_landings (found : Array (Nat × Instruction)) (h : offset ≤ chunk.size) (i : Instruction) :
    mark? (chunk.landings found) offset = some (chunk.landings (found.push (offset, i))) := by
  rw [mark?, size_landings, if_pos (Nat.lt_succ_of_le h), landings_push]

theorem sweepOf_push (i : Instruction) : chunk.sweepOf (found.push (offset, i)) =
    { marks := chunk.landings (found.push (offset, i))
      jumps := match jumpOf? (offset, i) with
        | some jump => (chunk.sweepOf found).jumps.push jump
        | none => (chunk.sweepOf found).jumps
      last := some i.opcode } := by
  unfold sweepOf
  rw [Array.back?_push, Array.filterMap_push (by rw [Array.size_push])]
  cases jumpOf? (offset, i) <;> rfl

/-! ### One instruction -/

theorem sweepStep?_unknown {byte : UInt8} (hread : Instruction.read chunk.code offset = .unknown byte) :
    chunk.sweepStep? offset (chunk.sweepOf found) = some (.error (.unknownOpcode offset byte)) := by
  obtain ⟨hbyte, hop⟩ := Instruction.unknown_of_read hread
  have hlt : offset < chunk.size := (Array.getElem?_eq_some_iff.mp hbyte).1
  have hmark := mark?_landings found (Nat.le_of_lt hlt) .ret
  simp [sweepStep?, sweepOf, hmark, hbyte, hop]

theorem sweepStep?_truncated {op : Opcode} (hread : Instruction.read chunk.code offset = .truncated op) :
    chunk.sweepStep? offset (chunk.sweepOf found) = some (.error (.truncatedOperand offset op)) := by
  obtain ⟨hbyte, hshort⟩ := Instruction.truncated_of_read hread
  have hlt : offset < chunk.size := (Array.getElem?_eq_some_iff.mp hbyte).1
  have hmark := mark?_landings found (Nat.le_of_lt hlt) .ret
  simp [sweepStep?, sweepOf, hmark, hbyte, Opcode.ofByte?_byte, size, hshort]

theorem sweepStep?_instruction {i : Instruction} (hread : Instruction.read chunk.code offset = .instruction i) :
    chunk.sweepStep? offset (chunk.sweepOf found) = some (match chunk.constantFlaw? offset i with
      | some flaw => .error flaw
      | none => .ok (offset + i.size, chunk.sweepOf (found.push (offset, i)))) := by
  have hbyte := Instruction.getElem?_of_read hread i.size_pos
  have hwithin := Instruction.read_within hread
  have hlt : offset < chunk.size := by
    have hpos := i.size_pos
    unfold size
    omega
  have hmark := mark?_landings found (Nat.le_of_lt hlt) i
  have hwhole : ¬chunk.size < offset + 1 + i.opcode.width := by
    rw [Instruction.size] at hwithin
    unfold size
    omega
  have hop : chunk.code[offset]? = some i.opcode.byte := hbyte
  rw [sweepOf_push]
  unfold sweepStep?
  rw [show (chunk.sweepOf found).marks = chunk.landings found from rfl, hmark, hop]
  simp only [Option.bind_eq_bind, Option.bind_some, Opcode.ofByte?_byte, if_neg hwhole]
  cases i with
  | constant index =>
    have hoperand : chunk.code[offset + 1]? = some index :=
      Instruction.getElem?_of_read hread (Nat.lt_succ_self 1)
    simp only [Instruction.opcode, hoperand, Option.bind_some, constantFlaw?]
    cases chunk.constant? index <;>
      simp [Instruction.size, Instruction.opcode, jumpOf?, Instruction.distance?, Nat.add_assoc]
  | getGlobal index | defineGlobal index | setGlobal index =>
    have hoperand : chunk.code[offset + 1]? = some index :=
      Instruction.getElem?_of_read hread (Nat.lt_succ_self 1)
    simp only [Instruction.opcode, hoperand, Option.bind_some, constantFlaw?]
    cases chunk.constant? index with
    | none => rfl
    | some constant =>
      cases constant <;>
        simp [Constant.string?, Instruction.size, Instruction.opcode, jumpOf?, Instruction.distance?,
          Nat.add_assoc]
  | jump distance | jumpIfFalse distance | loop distance =>
    have hword : chunk.word? (offset + 1) = some distance := Instruction.word?_of_read hread rfl
    simp [Instruction.opcode, constantFlaw?, hword, jumpOf?, Instruction.distance?, Instruction.target?,
      Opcode.width, Instruction.size, Nat.add_assoc]
  | _ => simp [Instruction.opcode, constantFlaw?, jumpOf?, Instruction.distance?, Instruction.size,
      Nat.add_assoc]

/-! ### The sweep -/

/-- A sweep over some instructions goes on over those that the verifier reads. -/
theorem sweepFrom?_sweepOf (count : Nat) : chunk.sweepFrom? offset (chunk.sweepOf found) count =
    some ((chunk.instructionsFrom offset found count).map chunk.sweepOf) := by
  induction count generalizing offset found with
  | zero => rfl
  | succ count ih =>
    rw [sweepFrom?, instructionsFrom]
    split
    · rename_i hlt
      cases hread : Instruction.read chunk.code offset with
      | pastEnd => exact absurd (Instruction.le_of_read_eq_pastEnd hread) (Nat.not_le_of_lt hlt)
      | unknown byte =>
        rw [sweepStep?_unknown hread]
        rfl
      | truncated op =>
        rw [sweepStep?_truncated hread]
        rfl
      | instruction i =>
        rw [sweepStep?_instruction hread]
        dsimp only
        cases chunk.constantFlaw? offset i with
        | some flaw => rfl
        | none => exact ih
    · rename_i hend
      rw [Instruction.read_eq_pastEnd (Nat.le_of_not_lt hend)]
      rfl

/-- A jump misses its target in the sweep exactly if it does not land for the verifier. -/
theorem misses_eq (entry : Nat × Instruction) :
    ((jumpOf? entry).any fun jump => !(chunk.sweepOf found).reaches jump.2.2) =
      !landsOn (chunk.landings found) entry.1 entry.2 := by
  obtain ⟨offset, i⟩ := entry
  have hmark : ∀ place : Nat, (chunk.landings found)[place]?.getD false =
      ((chunk.landings found)[place]? == some true) := by
    intro place
    cases (chunk.landings found)[place]? with
    | none => rfl
    | some mark => cases mark <;> rfl
  cases i with
  | jump | jumpIfFalse | loop =>
    unfold landsOn
    simp only [jumpOf?, Instruction.distance?, Option.map_some, Option.any_some, Sweep.reaches, sweepOf, hmark]
    split <;> rename_i htarget <;> rw [htarget] <;> rfl
  | _ => rfl

theorem opcode_eq_ret {i : Instruction} : i.opcode = .ret ↔ i = .ret := by
  cases i <;> simp [Instruction.opcode]

theorem last_eq_ret : (chunk.sweepOf found).last = some .ret ↔ found.back?.map (·.2) = some .ret := by
  unfold sweepOf
  simp only [Option.map_eq_some_iff, opcode_eq_ret]

/-- The sweep never goes out of range, and it finds what the verifier finds. -/
theorem sweep?_eq (chunk : Chunk) : chunk.sweep? = some chunk.verify := by
  have hmark : mark? (Array.replicate (chunk.size + 1) false) chunk.size = some (chunk.landings #[]) := by
    rw [mark?, Array.size_replicate, if_pos (Nat.lt_succ_self _)]
    rfl
  have hstart : chunk.sweepFrom? 0 { marks := chunk.landings #[], jumps := #[], last := none } chunk.size =
      some (chunk.instructions.map chunk.sweepOf) := sweepFrom?_sweepOf chunk.size
  unfold sweep? verify
  split
  · rw [hmark, Option.bind_eq_bind, Option.bind_some, hstart]
    cases chunk.instructions with
    | error flaw => rfl
    | ok found =>
      have hmisses : ((chunk.sweepOf found).jumps.find? fun jump => !(chunk.sweepOf found).reaches jump.2.2) =
          (found.find? fun entry => !landsOn (chunk.landings found) entry.1 entry.2).bind jumpOf? := by
        show ((found.filterMap jumpOf?).find? _) = _
        rw [Array.find?_filterMap]
        simp only [misses_eq]
      simp only [Except.map, Option.bind_eq_bind, Option.bind_some, hmisses, last_eq_ret]
      cases hfind : found.find? fun entry => !landsOn (chunk.landings found) entry.1 entry.2 with
      | none => rfl
      | some entry =>
        obtain ⟨offset, i⟩ := entry
        have hjump : i.distance? ≠ none := fun hnone => by
          have hmiss := Array.find?_some hfind
          simp [landsOn_iff.mpr (fun hjump => absurd hnone hjump)] at hmiss
        obtain ⟨distance, hdistance⟩ := Option.ne_none_iff_exists'.mp hjump
        simp [jumpOf?, hdistance]
  · rfl

end Chunk

end Lox
