import Lox.Machine.Run
import Lox.Proofs.Verification.Sweep

/-! # Three decoders

Code is decoded in three places: for a listing, which looks at single bytes of the chunk and goes on behind
the operands; in the sweep of the verifier; and in the machine, which reads byte after byte and moves on with
each. Here the first and the last are spelled out with their own accesses and their own arithmetic. For code
that the verifier accepts, the three agree on where the instructions start, on where each ends and on where
the jumps lead. A listing gets through any other code, too. -/

namespace Lox

/-! ### Listing from single bytes -/

namespace Chunk

variable {chunk : Chunk} {offset : Nat} {i : Instruction}

/-- An opcode with its operands, from the bytes that follow it; `none` if an access is out of range. -/
def operandText? (chunk : Chunk) (offset : Nat) (op : Opcode) : Option String :=
  let named (operand : Nat) : String := Text.alignLeft 16 op.mnemonic ++ " " ++ Text.padded 4 operand
  match op with
  | .constant | .getGlobal | .defineGlobal | .setGlobal => do
    let index ← chunk.code[offset + 1]?
    match chunk.constant? index with
    | some constant => some (named index.toNat ++ " '" ++ constant.text ++ "'")
    | none => some (named index.toNat ++ " <invalid constant>")
  | .getLocal | .setLocal | .call => do
    let operand ← chunk.code[offset + 1]?
    some (named operand.toNat)
  | .jump | .jumpIfFalse | .loop =>
    let distance := ((chunk.word? (offset + 1)).map UInt16.toNat).getD 0
    let after := offset + 3
    let target :=
      if op = .loop then if distance ≤ after then some (after - distance) else none
      else some (after + distance)
    match target with
    | some target => some (named distance ++ " -> " ++ toString target)
    | none => some (named distance ++ " -> ?")
  | _ => some op.mnemonic

/-- The listing of what stands at `offset`, and the offset at which the listing goes on; `none` if an
    access is out of range. -/
def describe? (chunk : Chunk) (offset : Nat) : Option (String × Nat) :=
  let start := Text.zeroPadded 4 offset ++ " " ++ chunk.lineColumn offset
  match chunk.code[offset]? with
  | none => some (start ++ "<end of chunk>", offset + 1)
  | some byte =>
    match Opcode.ofByte? byte with
    | none => some (start ++ "Unknown opcode " ++ toString byte.toNat, offset + 1)
    | some op =>
      if chunk.size ≤ offset + op.width ∧ 0 < op.width then
        some (start ++ Text.alignLeft 16 op.mnemonic ++ " <truncated>", chunk.size)
      else do
        let text ← chunk.operandText? offset op
        some (start ++ text, offset + 1 + op.width)

/-- Lists the code from `offset` on, after what is in `listing`, and notes in `begun` where each line begins;
    `none` if an access is out of range, or if the end of the code is not reached in so many rounds. -/
def listFrom? (chunk : Chunk) (offset : Nat) (listing : String) (begun : List Nat) :
    (rounds : Nat) → Option (String × List Nat)
  | 0 => none
  | rounds + 1 =>
    if offset < chunk.size then do
      let (line, next) ← chunk.describe? offset
      chunk.listFrom? next (listing ++ line ++ "\n") (begun ++ [offset]) rounds
    else some (listing, begun)

theorem operandText?_eq (hread : Instruction.read chunk.code offset = .instruction i) :
    chunk.operandText? offset i.opcode = some (chunk.instructionText offset i) := by
  cases i with
  | constant index | getGlobal index | defineGlobal index | setGlobal index =>
    have hoperand : chunk.code[offset + 1]? = some index :=
      Instruction.getElem?_of_read hread (Nat.lt_succ_self 1)
    simp only [operandText?, Instruction.opcode, instructionText, hoperand, Option.bind_eq_bind,
      Option.bind_some]
    cases chunk.constant? index <;> rfl
  | getLocal operand | setLocal operand | call operand =>
    have hoperand : chunk.code[offset + 1]? = some operand :=
      Instruction.getElem?_of_read hread (Nat.lt_succ_self 1)
    simp only [operandText?, Instruction.opcode, instructionText, hoperand, Option.bind_eq_bind,
      Option.bind_some]
  | jump distance | jumpIfFalse distance =>
    have hword : chunk.word? (offset + 1) = some distance := Instruction.word?_of_read hread rfl
    simp [operandText?, instructionText, Instruction.opcode, Instruction.target?, hword]
  | loop distance =>
    have hword : chunk.word? (offset + 1) = some distance := Instruction.word?_of_read hread rfl
    by_cases hback : distance.toNat ≤ offset + 3 <;>
      simp [operandText?, instructionText, Instruction.opcode, Instruction.target?, hword, hback]
  | _ => rfl

/-- The bytes of any code, from any place on, are listed without an access out of range. -/
theorem describe?_eq (chunk : Chunk) (offset : Nat) : chunk.describe? offset = some (chunk.listAt offset) := by
  unfold describe? listAt
  cases hread : Instruction.read chunk.code offset with
  | pastEnd =>
    rw [Array.getElem?_eq_none (Instruction.le_of_read_eq_pastEnd hread)]
  | unknown byte =>
    obtain ⟨hbyte, hop⟩ := Instruction.unknown_of_read hread
    simp only [hbyte, hop]
  | truncated op =>
    obtain ⟨hbyte, hshort⟩ := Instruction.truncated_of_read hread
    have hlt : offset < chunk.code.size := (Array.getElem?_eq_some_iff.mp hbyte).1
    have hcut : chunk.size ≤ offset + op.width ∧ 0 < op.width := by
      unfold size
      omega
    simp only [hbyte, Opcode.ofByte?_byte, if_pos hcut]
  | instruction i =>
    have hbyte : chunk.code[offset]? = some i.opcode.byte := Instruction.getElem?_of_read hread i.size_pos
    have hwithin : offset + (1 + i.opcode.width) ≤ chunk.code.size := Instruction.read_within hread
    have hwhole : ¬(chunk.size ≤ offset + i.opcode.width ∧ 0 < i.opcode.width) := by
      unfold size
      omega
    simp only [hbyte, Opcode.ofByte?_byte, if_neg hwhole, operandText?_eq hread, Option.bind_eq_bind,
      Option.bind_some, Instruction.size, Nat.add_assoc]

/-! ### Rounds of a listing -/

theorem listAt_advances (h : offset < chunk.size) : offset < (chunk.listAt offset).2 := by
  unfold listAt
  cases hread : Instruction.read chunk.code offset with
  | instruction i => exact Nat.lt_add_of_pos_right i.size_pos
  | unknown byte => exact Nat.lt_succ_self offset
  | truncated op => exact h
  | pastEnd => exact Nat.lt_succ_self offset

/-- The lines of a listing from `offset` on begin at these offsets. -/
def Lists (chunk : Chunk) : (offset : Nat) → List Nat → Prop
  | offset, [] => chunk.size ≤ offset
  | offset, place :: places => place = offset ∧ offset < chunk.size ∧ chunk.Lists (chunk.listAt offset).2 places

/-- The lines from some offset on stay at or behind it, stay within the code, and come one after the other. -/
theorem Lists.increasing {places : List Nat} (h : chunk.Lists offset places) :
    places.Pairwise (· < ·) ∧ ∀ place ∈ places, offset ≤ place ∧ place < chunk.size := by
  induction places generalizing offset with
  | nil => exact ⟨.nil, fun _ hplace => absurd hplace List.not_mem_nil⟩
  | cons place places ih =>
    obtain ⟨rfl, hlt, hrest⟩ := h
    obtain ⟨hsorted, hbounds⟩ := ih hrest
    have hnext := listAt_advances hlt
    have hbehind : ∀ later ∈ places, place < later :=
      fun later hlater => Nat.lt_of_lt_of_le hnext (hbounds later hlater).1
    refine ⟨List.pairwise_cons.mpr ⟨hbehind, hsorted⟩, List.forall_mem_cons.mpr ⟨⟨Nat.le_refl _, hlt⟩, ?_⟩⟩
    exact fun later hlater => ⟨Nat.le_of_lt (hbehind later hlater), (hbounds later hlater).2⟩

theorem listingOffsetsFrom_lists (chunk : Chunk) (offset : Nat) (found : Array Nat) {count : Nat}
    (hcount : chunk.size ≤ offset + count) :
    ∃ places, chunk.Lists offset places ∧ chunk.listingOffsetsFrom offset found count =
      found ++ places.toArray := by
  induction count generalizing offset found with
  | zero => exact ⟨[], hcount, by simp [listingOffsetsFrom]⟩
  | succ count ih =>
    rw [listingOffsetsFrom]
    split
    · rename_i hlt
      have hnext := listAt_advances hlt
      have hrest : chunk.size ≤ (chunk.listAt offset).2 + count := by omega
      obtain ⟨places, hlists, heq⟩ := ih _ (found.push offset) hrest
      exact ⟨offset :: places, ⟨rfl, hlt, hlists⟩, by rw [heq]; simp⟩
    · rename_i hend
      exact ⟨[], Nat.le_of_not_lt hend, by simp⟩

theorem lists_listingOffsets (chunk : Chunk) : chunk.Lists 0 chunk.listingOffsets := by
  obtain ⟨places, hlists, heq⟩ := listingOffsetsFrom_lists chunk 0 #[] (Nat.le_add_left _ _)
  rw [listingOffsets, heq]
  simpa using hlists

theorem Lists.listFrom? {places : List Nat} (h : chunk.Lists offset places) (listing : String)
    (begun : List Nat) {rounds : Nat} (hrounds : chunk.size < offset + rounds) (hpositive : 0 < rounds) :
    chunk.listFrom? offset listing begun rounds =
      some (places.foldl (fun listing place => listing ++ (chunk.listAt place).1 ++ "\n") listing,
        begun ++ places) := by
  induction places generalizing offset listing begun rounds with
  | nil =>
    obtain ⟨rounds, rfl⟩ := Nat.exists_eq_succ_of_ne_zero (Nat.ne_of_gt hpositive)
    rw [Chunk.listFrom?, if_neg (Nat.not_lt_of_le h), List.append_nil, List.foldl_nil]
  | cons place places ih =>
    obtain ⟨rfl, hlt, hrest⟩ := h
    obtain ⟨rounds, rfl⟩ := Nat.exists_eq_succ_of_ne_zero (Nat.ne_of_gt hpositive)
    have hnext := listAt_advances hlt
    rw [Chunk.listFrom?, if_pos hlt, describe?_eq, Option.bind_eq_bind, Option.bind_some]
    dsimp only
    rw [ih hrest _ _ (by omega) (by omega), List.foldl_cons, List.append_assoc, List.singleton_append]

/-- The lines of a listing begin at the starts of the instructions that fill the code. -/
theorem Fills.lists {items : List (Nat × Instruction)} (h : chunk.Fills offset items) :
    chunk.Lists offset (items.map (·.1)) := by
  induction items generalizing offset with
  | nil => exact Nat.le_of_eq (Eq.symm h)
  | cons entry items ih =>
    obtain ⟨rfl, hread, -, hrest⟩ := h
    have hwithin := Instruction.read_within hread
    have hsize := entry.2.size_pos
    refine ⟨rfl, Nat.lt_of_lt_of_le (Nat.lt_add_of_pos_right hsize) hwithin, ?_⟩
    rw [listAt, hread]
    exact ih hrest

theorem Lists.unique {places places' : List Nat} (h : chunk.Lists offset places)
    (h' : chunk.Lists offset places') :
    places = places' := by
  induction places generalizing offset places' with
  | nil =>
    cases places' with
    | nil => rfl
    | cons place' places' => exact absurd h'.2.1 (Nat.not_lt_of_le h)
  | cons place places ih =>
    obtain ⟨rfl, hlt, hrest⟩ := h
    cases places' with
    | nil => exact absurd hlt (Nat.not_lt_of_le h')
    | cons place' places' =>
      obtain ⟨rfl, -, hrest'⟩ := h'
      rw [ih hrest hrest']

end Chunk

/-! ### Fetching byte after byte -/

/-- Reads code at the place of a call, which moves on with it. -/
abbrev Fetch := EStateM Fault Frame

namespace Fetch

/-- The next byte. The call moves on even if there is none. -/
def byte : Fetch UInt8 := fun frame =>
  match frame.function.chunk.code[frame.ip]? with
  | some byte => .ok byte { frame with ip := frame.ip + 1 }
  | none => .error .pastEnd { frame with ip := frame.ip + 1 }

/-- The next two bytes as a word. -/
def word : Fetch UInt16 := do
  let high ← byte
  let low ← byte
  return wordOfBytes high low

/-- The operands of an opcode that has been read. -/
def operands : Opcode → Fetch Instruction
  | .constant => return .constant (← byte)
  | .nil => return .nil
  | .trueValue => return .trueValue
  | .falseValue => return .falseValue
  | .pop => return .pop
  | .getLocal => return .getLocal (← byte)
  | .setLocal => return .setLocal (← byte)
  | .getGlobal => return .getGlobal (← byte)
  | .defineGlobal => return .defineGlobal (← byte)
  | .setGlobal => return .setGlobal (← byte)
  | .equal => return .equal
  | .greater => return .greater
  | .less => return .less
  | .add => return .add
  | .subtract => return .subtract
  | .multiply => return .multiply
  | .divide => return .divide
  | .logicalNot => return .logicalNot
  | .negate => return .negate
  | .print => return .print
  | .jump => return .jump (← word)
  | .jumpIfFalse => return .jumpIfFalse (← word)
  | .loop => return .loop (← word)
  | .call => return .call (← byte)
  | .ret => return .ret

/-- The next instruction with its operands. -/
def instruction : Fetch Instruction := do
  let tag ← byte
  match Opcode.ofByte? tag with
  | none => throw (.unknownOpcode tag)
  | some op => operands op

variable {frame : Frame}

theorem run_bind {α β : Type} (fetch : Fetch α) (rest : α → Fetch β) (frame : Frame) :
    (fetch >>= rest).run frame = match fetch.run frame with
      | .ok a frame => (rest a).run frame
      | .error fault frame => .error fault frame := by
  show EStateM.bind fetch rest frame = _
  unfold EStateM.bind EStateM.run
  cases fetch frame <;> rfl

theorem run_byte {b : UInt8} (h : frame.function.chunk.code[frame.ip]? = some b) :
    byte.run frame = .ok b { frame with ip := frame.ip + 1 } := by
  rw [EStateM.run, byte, h]

theorem run_byte_none (h : frame.function.chunk.code.size ≤ frame.ip) :
    byte.run frame = .error .pastEnd { frame with ip := frame.ip + 1 } := by
  rw [EStateM.run, byte, Array.getElem?_eq_none h]

theorem run_word {high low : UInt8} (hhigh : frame.function.chunk.code[frame.ip]? = some high)
    (hlow : frame.function.chunk.code[frame.ip + 1]? = some low) :
    word.run frame = .ok (wordOfBytes high low) { frame with ip := frame.ip + 2 } := by
  rw [word, run_bind, run_byte hhigh]
  dsimp only
  rw [run_bind, run_byte hlow]
  rfl

/-- A word of which a byte is missing takes the call behind the end of the code. -/
theorem run_word_none (h : frame.function.chunk.code.size ≤ frame.ip + 1)
    (hip : frame.ip ≤ frame.function.chunk.code.size) :
    word.run frame = .error .pastEnd { frame with ip := frame.function.chunk.code.size + 1 } := by
  rw [word, run_bind]
  rcases Nat.eq_or_lt_of_le hip with hend | hlt
  · rw [run_byte_none (Nat.le_of_eq hend.symm), hend]
  · rw [run_byte (Array.getElem?_eq_getElem hlt)]
    dsimp only
    rw [run_bind, run_byte_none h, Nat.le_antisymm h hlt]

theorem run_operands {i : Instruction}
    (hread : Instruction.read frame.function.chunk.code frame.ip = .instruction i) :
    (operands i.opcode).run { frame with ip := frame.ip + 1 } =
      .ok i { frame with ip := frame.ip + i.size } := by
  cases i with
  | constant operand | getLocal operand | setLocal operand | getGlobal operand | defineGlobal operand
  | setGlobal operand
  | call operand =>
    have hbyte : frame.function.chunk.code[frame.ip + 1]? = some operand :=
      Instruction.getElem?_of_read hread (Nat.lt_succ_self 1)
    rw [Instruction.opcode, operands, run_bind, run_byte hbyte]
    rfl
  | jump distance | jumpIfFalse distance | loop distance =>
    have hhigh : frame.function.chunk.code[frame.ip + 1]? = some (highByte distance) :=
      Instruction.getElem?_of_read hread (Nat.lt_of_sub_pos Nat.two_pos)
    have hlow : frame.function.chunk.code[frame.ip + 2]? = some (lowByte distance) :=
      Instruction.getElem?_of_read hread (Nat.lt_succ_self 2)
    rw [Instruction.opcode, operands, run_bind, run_word hhigh hlow, wordOfBytes_highByte_lowByte]
    rfl
  | _ => rfl

theorem run_operands_truncated {op : Opcode} (htag : frame.ip < frame.function.chunk.code.size)
    (hshort : frame.function.chunk.code.size < frame.ip + 1 + op.width) :
    (operands op).run { frame with ip := frame.ip + 1 } =
      .error .pastEnd { frame with ip := frame.function.chunk.code.size + 1 } := by
  cases op with
  | constant | getLocal | setLocal | getGlobal | defineGlobal | setGlobal | call =>
    rw [Opcode.width] at hshort
    have hend : frame.ip + 1 = frame.function.chunk.code.size := by omega
    rw [operands, run_bind, run_byte_none (Nat.le_of_eq hend.symm), hend]
  | jump | jumpIfFalse | loop =>
    rw [Opcode.width] at hshort
    have hmissing : word.run { frame with ip := frame.ip + 1 } =
        .error .pastEnd { frame with ip := frame.function.chunk.code.size + 1 } :=
      run_word_none (Nat.le_of_lt_succ hshort) htag
    rw [operands, run_bind, hmissing]
  | _ => exact absurd htag (Nat.not_lt_of_le (Nat.le_of_lt_succ hshort))

/-- What the machine fetches is what is read, and the call is behind the last byte that was wanted. -/
theorem run_instruction (frame : Frame) :
    instruction.run frame = match Instruction.read frame.function.chunk.code frame.ip with
      | .instruction i => .ok i { frame with ip := frame.ip + i.size }
      | .unknown byte => .error (.unknownOpcode byte) { frame with ip := frame.ip + 1 }
      | .truncated _ => .error .pastEnd { frame with ip := frame.function.chunk.size + 1 }
      | .pastEnd => .error .pastEnd { frame with ip := frame.ip + 1 } := by
  rw [instruction, run_bind]
  cases hread : Instruction.read frame.function.chunk.code frame.ip with
  | pastEnd => rw [run_byte_none (Instruction.le_of_read_eq_pastEnd hread)]
  | unknown byte =>
    obtain ⟨hbyte, hop⟩ := Instruction.unknown_of_read hread
    rw [run_byte hbyte]
    dsimp only
    rw [hop]
    rfl
  | truncated op =>
    obtain ⟨hbyte, hshort⟩ := Instruction.truncated_of_read hread
    have hlt : frame.ip < frame.function.chunk.code.size := (Array.getElem?_eq_some_iff.mp hbyte).1
    rw [run_byte hbyte]
    dsimp only
    rw [Opcode.ofByte?_byte]
    exact run_operands_truncated hlt hshort
  | instruction i =>
    have hbyte : frame.function.chunk.code[frame.ip]? = some i.opcode.byte :=
      Instruction.getElem?_of_read hread i.size_pos
    rw [run_byte hbyte]
    dsimp only
    rw [Opcode.ofByte?_byte]
    exact run_operands hread

end Fetch

namespace Machine

variable {m : Machine} {frame : Frame} {callers : List Frame}

/-- A step fetches byte after byte and performs what it has fetched. -/
theorem step_eq_fetch (hosts : Hosts) (hframes : m.frames = frame :: callers) :
    step hosts m = match m.limits.maxSteps.filter (· ≤ m.steps) with
      | some limit => .fault m (.stepLimit limit)
      | none => match Fetch.instruction.run frame with
        | .ok i frame =>
          perform (hosts.during m.steps) { m with steps := m.steps + 1, frames := frame :: callers } frame i
        | .error fault frame => .fault { m with frames := frame :: callers } fault := by
  rw [Fetch.run_instruction]
  unfold step
  cases m.limits.maxSteps.filter (· ≤ m.steps) with
  | some limit => rfl
  | none =>
    rw [hframes]
    dsimp only
    cases Instruction.read frame.function.chunk.code frame.ip <;> simp only [goTo, hframes, List.tail_cons]

/-- A jump that the machine is about to make, whatever the machine holds unless the jump looks at it. -/
def Jumps (m : Machine) : Instruction → Prop
  | .jump _ | .loop _ => True
  | .jumpIfFalse _ => ∃ value, m.peek? 0 = some value ∧ value.isFalsy = true
  | _ => False

/-- A jump that is made leads to its target. -/
theorem step_of_jumps (hosts : Hosts) {offset target : Nat} {i : Instruction}
    (hframes : m.frames = frame :: callers) (hlimit : m.limits.maxSteps.filter (· ≤ m.steps) = none)
    (hfetch : Fetch.instruction.run frame = .ok i { frame with ip := offset + i.size }) (hjumps : m.Jumps i)
    (htarget : i.target? offset = some target) :
    ∃ m', step hosts m = .next m' ∧ m'.frames = { frame with ip := target } :: callers := by
  rw [step_eq_fetch hosts hframes, hlimit, hfetch]
  cases i with
  | jump distance =>
    cases htarget
    exact ⟨_, rfl, rfl⟩
  | jumpIfFalse distance =>
    cases htarget
    obtain ⟨value, hpeek, hfalsy⟩ := hjumps
    have hmade : ∀ (host : Host) (moved : Machine) (frame : Frame), moved.stack = m.stack →
        perform host moved frame (.jumpIfFalse distance) =
          .next (moved.goTo frame (frame.ip + distance.toNat)) := by
      intro host moved frame hstack
      have hpeek' : moved.peek? 0 = some value := by rw [← hpeek, peek?, peek?, hstack]
      rw [perform, hpeek']
      simp only [hfalsy, if_true]
    exact ⟨_, hmade _ _ _ rfl, rfl⟩
  | loop distance =>
    rw [Instruction.target?] at htarget
    split at htarget
    · rename_i hback
      cases htarget
      refine ⟨_, if_pos hback, rfl⟩
    · cases htarget
  | _ => exact absurd hjumps not_false

end Machine

/-! ### Agreement -/

namespace Chunk

variable {chunk : Chunk} {offset : Nat} {i : Instruction}

/-- The three decoders find the same instruction at an offset and go on at the same place. -/
structure Decoded (chunk : Chunk) (offset : Nat) (i : Instruction) (next : Nat) : Prop where
  /-- The listing goes on there, -/
  listed : ∃ line, chunk.describe? offset = some (line, next)
  /-- the sweep of the verifier does, -/
  swept : ∀ found, chunk.sweepStep? offset (chunk.sweepOf found) =
    some (.ok (next, chunk.sweepOf (found.push (offset, i))))
  /-- and so does every call that runs the code. -/
  fetched : ∀ frame : Frame, frame.function.chunk = chunk → frame.ip = offset →
    Fetch.instruction.run frame = .ok i { frame with ip := next }

/-- The three decoders let a jump lead to the same place. -/
structure Aimed (chunk : Chunk) (offset : Nat) (i : Instruction) (target : Nat) : Prop where
  /-- The line of the listing ends with the target, -/
  listed : ∃ start next, chunk.describe? offset = some (start ++ " -> " ++ toString target, next)
  /-- the sweep of the verifier notes it, -/
  swept : jumpOf? (offset, i) = some (offset, i.opcode, some target)
  /-- and there every call goes that makes the jump. -/
  made : ∀ (hosts : Hosts) (m : Machine) (frame : Frame) (callers : List Frame), m.frames = frame :: callers →
    frame.function.chunk = chunk → frame.ip = offset → m.limits.maxSteps.filter (· ≤ m.steps) = none →
    m.Jumps i → ∃ m', Machine.step hosts m = .next m' ∧ m'.frames = { frame with ip := target } :: callers

theorem decoded_of_read (hread : Instruction.read chunk.code offset = .instruction i)
    (hflaw : chunk.constantFlaw? offset i = none) : chunk.Decoded offset i (offset + i.size) where
  listed := by
    rw [describe?_eq, listAt, hread]
    exact ⟨_, rfl⟩
  swept found := by rw [sweepStep?_instruction hread, hflaw]
  fetched frame hchunk hip := by
    subst hchunk hip
    rw [Fetch.run_instruction, hread]

theorem aimed_of_read (hread : Instruction.read chunk.code offset = .instruction i)
    (hflaw : chunk.constantFlaw? offset i = none) (hjump : i.distance? ≠ none) {target : Nat}
    (htarget : i.target? offset = some target) : chunk.Aimed offset i target where
  listed := by
    rw [describe?_eq, listAt, hread]
    cases i with
    | jump | jumpIfFalse | loop =>
      simp only [instructionText, htarget, ← String.append_assoc]
      exact ⟨_, _, rfl⟩
    | _ => exact absurd rfl hjump
  swept := by
    obtain ⟨distance, hdistance⟩ := Option.ne_none_iff_exists'.mp hjump
    rw [jumpOf?, hdistance, Option.map_some, htarget]
  made hosts m frame callers hframes hchunk hip hlimit hjumps :=
    Machine.step_of_jumps hosts hframes hlimit ((decoded_of_read hread hflaw).fetched frame hchunk hip)
      hjumps htarget

end Chunk

/-- For every function that the verifier accepts, the lines of the listing begin, in order, at the starts
    of the instructions that the verifier has found and marked; each instruction is decoded alike three
    times, and each jump has one target. And for any code whatever, each place is listed without an access
    out of range, and the listing comes to its end after no more lines than there are bytes, with each line
    behind the one before. -/
theorem Chunk.decoders_agree :
    (∀ f : Function, f.verify = .ok () → ∀ g ∈ f.all, ∃ found, g.chunk.instructions = .ok found ∧
      g.chunk.listingOffsets = found.toList.map (·.1) ∧
      (∀ place < g.chunk.size, (g.chunk.landings found)[place]? = some true ↔ place ∈ g.chunk.listingOffsets) ∧
      ∀ offset i, (offset, i) ∈ found → g.chunk.Decoded offset i (offset + i.size) ∧
        (i.distance? ≠ none → ∃ target, g.chunk.Aimed offset i target)) ∧
    ∀ (chunk : Chunk) (title : String),
      (∀ offset, chunk.describe? offset = some (chunk.listAt offset)) ∧
      (∀ rounds, chunk.size < rounds → chunk.listFrom? 0 ("== " ++ title ++ " ==\n") [] rounds =
        some (chunk.list title, chunk.listingOffsets)) ∧
      chunk.listingOffsets.Pairwise (· < ·) ∧ ∀ offset ∈ chunk.listingOffsets, offset < chunk.size := by
  constructor
  · intro f hf g hg
    obtain ⟨found, hfound, hsound⟩ := verify_eq_ok.mp (Function.verify_eq_ok.mp hf g hg)
    have hfills := hsound.fills
    have hoffsets := (lists_listingOffsets g.chunk).unique hfills.lists
    refine ⟨found, hfound, hoffsets, fun place hplace => ?_, fun offset i hi => ?_⟩
    · have hmarks : (g.chunk.landings found.toList.toArray)[place]? = some true ↔ _ := getElem?_landings hfills
      rw [Array.toArray_toList] at hmarks
      rw [hmarks, hoffsets, List.mem_map]
      constructor
      · rintro (rfl | ⟨i, hi⟩)
        · exact absurd hplace (Nat.lt_irrefl _)
        · exact ⟨_, hi, rfl⟩
      · rintro ⟨⟨_, i⟩, hi, rfl⟩
        exact Or.inr ⟨i, hi⟩
    · obtain ⟨hread, hflaw⟩ := hfills.mem (Array.mem_def.mp hi)
      refine ⟨decoded_of_read hread hflaw, fun hjump => ?_⟩
      obtain ⟨target, htarget, -⟩ := hsound.lands offset i (Array.mem_def.mp hi) hjump
      exact ⟨target, aimed_of_read hread hflaw hjump htarget⟩
  · intro chunk title
    have hlists := lists_listingOffsets chunk
    refine ⟨chunk.describe?_eq, fun rounds hrounds => ?_, hlists.increasing.1,
      fun offset hoffset => (hlists.increasing.2 offset hoffset).2⟩
    rw [hlists.listFrom? _ _ (by omega) (by omega), List.nil_append]
    rfl

/-- A script that the verifier accepts, with a jump forward over a loop that goes back to the start. -/
def circling : Function :=
  { arity := 0
    chunk :=
      { code := #[0x01, 0x15, 0x00, 0x03, 0x16, 0x00, 0x07, 0x18], lines := #[1, 1, 1, 1, 1, 1, 1, 1],
        constants := [] }
    name := none }

theorem read_circling : Instruction.read circling.chunk.code 4 = .instruction (.loop 7) := by decide +kernel

/-- The circling script is decoded alike three times at its loop. -/
theorem Chunk.decoders_agree_circling : circling.verify = .ok () ∧
    circling.chunk.listingOffsets = [0, 1, 4, 7] ∧
    circling.chunk.Decoded 4 (.loop 7) 7 ∧ circling.chunk.Aimed 4 (.loop 7) 0 := by
  have hverify : circling.verify = .ok () := by decide +kernel
  have hoffsets : circling.chunk.listingOffsets = [0, 1, 4, 7] := by decide +kernel
  obtain ⟨found, hfound, hstarts, -, hdecoded⟩ :=
    Chunk.decoders_agree.1 circling hverify circling circling.mem_all_self
  have hloop : (4, .loop 7) ∈ found := by
    have hplace : 4 ∈ found.toList.map (·.1) := by rw [← hstarts, hoffsets]; decide
    obtain ⟨⟨place, i⟩, hi, rfl⟩ := List.mem_map.mp hplace
    have hread := ((instructions_eq_ok.mp hfound).mem hi).1
    rw [read_circling] at hread
    obtain rfl := Instruction.Reading.instruction.inj hread
    exact Array.mem_def.mpr hi
  obtain ⟨hthree, haimed⟩ := hdecoded 4 (.loop 7) hloop
  obtain ⟨target, htarget⟩ := haimed (Option.some_ne_none _)
  obtain rfl : target = 0 := by
    have hswept : some (4, Opcode.loop, some 0) = some (4, Opcode.loop, some target) := htarget.swept
    cases hswept
    rfl
  exact ⟨hverify, hoffsets, hthree, htarget⟩

end Lox
