import Lox.Chunk

/-! # Chunks along their calls

A chunk is changed by four calls: a byte or an opcode is written, a constant is added, a word is overwritten.
Code, lines and constants only grow, and nothing but the overwriting of a word changes what is there. So an
offset or an index that has been handed out keeps its meaning, whatever calls come in between. -/

namespace Lox

namespace Chunk

variable {chunk next later middle last : Chunk} {offset other k : Nat} {word word' : UInt16}

/-! ### Words of the code -/

/-- Code that is added at the end leaves the words before it as they are. -/
theorem word?_of_append {chunk' : Chunk} {more : Array UInt8} (h : chunk'.code = chunk.code ++ more)
    (hplace : offset + 2 ≤ chunk.size) : chunk'.word? offset = chunk.word? offset := by
  have hsize : chunk.size = chunk.code.size := rfl
  unfold word?
  rw [h, Array.getElem?_append_left (by omega), Array.getElem?_append_left (by omega)]

theorem size_patch (chunk : Chunk) (offset : Nat) (word : UInt16) :
    (chunk.patch offset word).size = chunk.size := by
  unfold size patch
  rw [Array.size_setIfInBounds, Array.size_setIfInBounds]

/-- Overwriting a word changes no other byte. -/
theorem getElem?_patch (h : k ≠ offset) (h' : k ≠ offset + 1) (word : UInt16) :
    (chunk.patch offset word).code[k]? = chunk.code[k]? := by
  unfold patch
  rw [Array.getElem?_setIfInBounds_ne h'.symm, Array.getElem?_setIfInBounds_ne h.symm]

/-- Overwriting a word leaves the words beside it as they are. -/
theorem word?_patch_of_apart (h : other + 2 ≤ offset ∨ offset + 2 ≤ other) (word : UInt16) :
    (chunk.patch offset word).word? other = chunk.word? other := by
  unfold word?
  rw [getElem?_patch (by omega) (by omega), getElem?_patch (by omega) (by omega)]

/-- A word that is within the code is read as it was written. -/
theorem word?_patch (h : offset + 1 < chunk.size) (word : UInt16) :
    (chunk.patch offset word).word? offset = some word := by
  have hhigh : (chunk.patch offset word).code[offset]? = some (highByte word) := by
    unfold patch
    rw [Array.getElem?_setIfInBounds_ne (Nat.succ_ne_self offset),
      Array.getElem?_setIfInBounds_self_of_lt (Nat.lt_of_succ_lt h)]
  have hlow : (chunk.patch offset word).code[offset + 1]? = some (lowByte word) := by
    unfold patch
    rw [Array.getElem?_setIfInBounds_self_of_lt (by rwa [Array.size_setIfInBounds])]
  unfold word?
  rw [hhigh, hlow]
  exact congrArg some (wordOfBytes_highByte_lowByte word)

/-- It does not matter which of two words that have no byte in common is overwritten first. -/
theorem patch_comm (h : offset + 1 < other ∨ other + 1 < offset) :
    (chunk.patch offset word).patch other word' = (chunk.patch other word').patch offset word := by
  have hbytes : offset + 1 ≠ other ∧ offset ≠ other ∧ offset + 1 ≠ other + 1 ∧ offset ≠ other + 1 := by omega
  obtain ⟨hlowhigh, hhighhigh, hlowlow, hhighlow⟩ := hbytes
  unfold patch
  dsimp only
  -- The bytes of the second word are moved, one after the other, before those of the first one.
  rw [Array.setIfInBounds_comm _ _ hlowhigh, Array.setIfInBounds_comm _ _ hhighhigh,
    Array.setIfInBounds_comm _ _ hlowlow, Array.setIfInBounds_comm _ _ hhighlow]

/-! ### Calls -/

/-- A call that changes a chunk. -/
inductive Edit where
  | write (byte : UInt8) (line : UInt32)
  | writeOp (op : Opcode) (line : UInt32)
  | addConstant (constant : Constant)
  | patch (offset : Nat) (word : UInt16)

/-- What a call answers: the offset of a byte, the index of a constant, or that there is no
    room for a constant. -/
inductive Answer where
  | offset (place : Nat)
  | index (number : UInt8)
  | full
  | done

/-- The byte that a call writes, with its line. -/
def Edit.written? : Edit → Option (UInt8 × UInt32)
  | .write byte line => some (byte, line)
  | .writeOp op line => some (op.byte, line)
  | .addConstant _ | .patch _ _ => none

/-- A call overwrites the byte with the given offset. -/
def Edit.Overwrites (edit : Edit) (k : Nat) : Prop :=
  ∃ offset word, edit = .patch offset word ∧ (k = offset ∨ k = offset + 1)

/-- What a call answers, and the chunk after it. A word is only overwritten within the code. -/
def edit? (chunk : Chunk) : Edit → Option (Answer × Chunk)
  | .write byte line => some (.offset ((chunk.write byte line).size - 1), chunk.write byte line)
  | .writeOp op line => some (.offset ((chunk.write op.byte line).size - 1), chunk.write op.byte line)
  | .addConstant constant =>
    match chunk.addConstant? constant with
    | some (index, chunk) => some (.index index, chunk)
    | none => some (.full, chunk)
  | .patch offset word => if offset + 1 < chunk.size then some (.done, chunk.patch offset word) else none

/-- These calls, with these answers, lead from a chunk to another one. -/
def Leads (chunk : Chunk) : (calls : List (Edit × Answer)) → (last : Chunk) → Prop
  | [], last => chunk = last
  | (edit, answer) :: calls, last => ∃ next, chunk.edit? edit = some (answer, next) ∧ next.Leads calls last

variable {edit : Edit} {answer : Answer} {calls calls' : List (Edit × Answer)}

theorem leads_append : chunk.Leads (calls ++ calls') last ↔ ∃ middle, chunk.Leads calls middle ∧
    middle.Leads calls' last := by
  induction calls generalizing chunk with
  | nil => exact ⟨fun h => ⟨chunk, rfl, h⟩, fun ⟨_, hsame, h⟩ => hsame ▸ h⟩
  | cons call calls ih =>
    constructor
    · rintro ⟨next, hedit, h⟩
      obtain ⟨middle, hmiddle, hlast⟩ := ih.mp h
      exact ⟨middle, ⟨next, hedit, hmiddle⟩, hlast⟩
    · rintro ⟨middle, ⟨next, hedit, hmiddle⟩, hlast⟩
      exact ⟨next, hedit, ih.mpr ⟨middle, hmiddle, hlast⟩⟩

/-- The four things that a call can do. -/
inductive Effect (chunk : Chunk) : Edit → Answer → (next : Chunk) → Prop
  | written {edit : Edit} {byte : UInt8} {line : UInt32} (hwritten : edit.written? = some (byte, line)) :
    Effect chunk edit (.offset chunk.size) (chunk.write byte line)
  | added {constant : Constant} (hroom : chunk.constants.length < maxConstants) :
    Effect chunk (.addConstant constant) (.index (UInt8.ofNat chunk.constants.length))
      { chunk with constants := chunk.constants ++ [constant] }
  | rejected {constant : Constant} (hfull : maxConstants ≤ chunk.constants.length) :
    Effect chunk (.addConstant constant) .full chunk
  | patched {offset : Nat} {word : UInt16} (hinside : offset + 1 < chunk.size) :
    Effect chunk (.patch offset word) .done (chunk.patch offset word)

theorem size_write (chunk : Chunk) (byte : UInt8) (line : UInt32) :
    (chunk.write byte line).size = chunk.size + 1 :=
  Array.size_push _

theorem effect_of_edit? (h : chunk.edit? edit = some (answer, next)) : chunk.Effect edit answer next := by
  cases edit with
  | write byte line | writeOp op line =>
    rw [edit?, size_write] at h
    cases h
    exact .written rfl
  | addConstant constant =>
    by_cases hroom : chunk.constants.length < maxConstants
    · simp only [edit?, addConstant?, if_pos hroom] at h
      cases h
      exact .added hroom
    · simp only [edit?, addConstant?, if_neg hroom] at h
      cases h
      exact .rejected (Nat.le_of_not_lt hroom)
  | patch offset word =>
    rw [edit?] at h
    split at h
    · cases h
      exact .patched ‹_›
    · cases h

/-! ### What calls keep -/

/-- The table has a line for each byte, and the pool is not too large. -/
structure Regular (chunk : Chunk) : Prop where
  lines : chunk.lines.size = chunk.code.size
  room : chunk.constants.length ≤ maxConstants

theorem Effect.regular (h : chunk.Effect edit answer next) (hregular : chunk.Regular) : next.Regular := by
  cases h with
  | written hwritten =>
    refine ⟨?_, hregular.room⟩
    unfold write
    rw [Array.size_push, Array.size_push, hregular.lines]
  | added hroom => exact ⟨hregular.lines, by simpa using Nat.succ_le_of_lt hroom⟩
  | rejected hfull => exact hregular
  | patched hinside => exact ⟨hregular.lines.trans (size_patch ..).symm, hregular.room⟩

/-- What is there stays, apart from bytes that the calls overwrite. -/
structure Kept (calls : List (Edit × Answer)) (chunk later : Chunk) : Prop where
  size : chunk.size ≤ later.size
  constants : chunk.constants <+: later.constants
  lines : ∀ offset line, chunk.line? offset = some line → later.line? offset = some line
  code : ∀ offset < chunk.size, (∀ call ∈ calls, ¬call.1.Overwrites offset) →
    later.code[offset]? = chunk.code[offset]?

theorem Kept.refl (chunk : Chunk) : Kept [] chunk chunk :=
  ⟨Nat.le_refl _, List.prefix_refl _, fun _ _ h => h, fun _ _ _ => rfl⟩

theorem Kept.trans (h : Kept calls chunk middle) (h' : Kept calls' middle last) :
    Kept (calls ++ calls') chunk last where
  size := Nat.le_trans h.size h'.size
  constants := h.constants.trans h'.constants
  lines offset line hline := h'.lines offset line (h.lines offset line hline)
  code offset hoffset hnone := by
    obtain ⟨hfirst, hsecond⟩ := List.forall_mem_append.mp hnone
    exact (h'.code offset (Nat.lt_of_lt_of_le hoffset h.size) hsecond).trans (h.code offset hoffset hfirst)

theorem Effect.kept (h : chunk.Effect edit answer next) : Kept [(edit, answer)] chunk next := by
  cases h with
  | @written _ byte line hwritten =>
    refine ⟨by rw [size_write]; exact Nat.le_succ _, List.prefix_refl _, fun offset line hline => ?_,
      fun offset hoffset _ => ?_⟩
    · obtain ⟨hlt, -⟩ := Array.getElem?_eq_some_iff.mp hline
      rwa [line?, write, Array.getElem?_push_lt hlt, ← Array.getElem?_eq_getElem hlt]
    · rw [write, Array.getElem?_push_lt hoffset, ← Array.getElem?_eq_getElem hoffset]
  | added hroom => exact ⟨Nat.le_refl _, List.prefix_append _ _, fun _ _ h => h, fun _ _ _ => rfl⟩
  | rejected hfull => exact ⟨Nat.le_refl _, List.prefix_refl _, fun _ _ h => h, fun _ _ _ => rfl⟩
  | @patched place word hinside =>
    refine ⟨Nat.le_of_eq (size_patch ..).symm, List.prefix_refl _, fun _ _ h => h, fun offset _ hnone => ?_⟩
    have hplace := List.forall_mem_singleton.mp hnone
    refine getElem?_patch ?_ ?_ word
    · exact fun heq => hplace ⟨place, word, rfl, .inl heq⟩
    · exact fun heq => hplace ⟨place, word, rfl, .inr heq⟩

/-- An offset or an index that is the answer of a call is one of the chunk. -/
def Answer.Within (chunk : Chunk) : Answer → Prop
  | .offset place => place < chunk.size
  | .index number => number.toNat < chunk.constants.length
  | .full | .done => True

theorem Answer.Within.kept (h : answer.Within chunk) (hkept : Kept calls chunk later) :
    answer.Within later := by
  cases answer with
  | offset offset => exact Nat.lt_of_lt_of_le h hkept.size
  | index index => exact Nat.lt_of_lt_of_le h hkept.constants.length_le
  | full | done => trivial

theorem toNat_index (h : chunk.constants.length < maxConstants) :
    (UInt8.ofNat chunk.constants.length).toNat = chunk.constants.length :=
  UInt8.toNat_ofNat_of_lt' h

theorem Effect.within (h : chunk.Effect edit answer next) : answer.Within next := by
  cases h with
  | written hwritten =>
    rw [Answer.Within, size_write]
    exact Nat.lt_succ_self _
  | added hroom =>
    rw [Answer.Within, toNat_index hroom, List.length_append]
    exact Nat.lt_succ_self _
  | rejected hfull | patched hinside => trivial

/-- What lasts along calls, with all that they have answered. -/
structure Lasts (chunk : Chunk) (calls : List (Edit × Answer)) (last : Chunk) : Prop where
  regular : chunk.Regular → last.Regular
  kept : Kept calls chunk last
  within : ∀ call ∈ calls, call.2.Within last

theorem Leads.lasts (h : chunk.Leads calls last) : Lasts chunk calls last := by
  induction calls generalizing chunk with
  | nil =>
    obtain rfl : chunk = last := h
    exact ⟨id, .refl chunk, fun _ hcall => absurd hcall List.not_mem_nil⟩
  | cons call calls ih =>
    obtain ⟨next, hedit, hrest⟩ := h
    have heffect := effect_of_edit? hedit
    have hlasts := ih hrest
    -- What the first call has answered stays within the chunk, since the later ones keep what is there.
    refine ⟨fun hregular => hlasts.regular (heffect.regular hregular), heffect.kept.trans hlasts.kept, ?_⟩
    exact List.forall_mem_cons.mpr ⟨heffect.within.kept hlasts.kept, hlasts.within⟩

/-! ### A call in the course of others -/

/-- What a call does, with the calls before and after it, the chunks right before and right after it, and the
    chunk in the end. -/
structure Settled (before : List (Edit × Answer)) (edit : Edit) (answer : Answer) (after : List (Edit × Answer))
    (pre post last : Chunk) : Prop where
  /-- A byte gets an offset that no other one has, and keeps its line; the byte stays, too, unless
      it is overwritten. -/
  written : ∀ byte line, edit.written? = some (byte, line) → ∃ offset, answer = .offset offset ∧
    (∀ call ∈ before, call.2 ≠ .offset offset) ∧ last.line? offset = some line ∧
    ((∀ call ∈ after, ¬call.1.Overwrites offset) → last.code[offset]? = some byte)
  /-- A constant gets an index that no other one has, and keeps it; or there is no room, and nothing changes. -/
  added : ∀ constant, edit = .addConstant constant →
    (∃ index, answer = .index index ∧ (∀ call ∈ before, call.2 ≠ .index index) ∧ pre.constant? index = none ∧
      last.constant? index = some constant) ∨
    answer = .full ∧ pre.constants.length = maxConstants ∧ post = pre
  /-- A word that is overwritten is read as it was written, and no other byte changes. -/
  patched : ∀ offset word, edit = .patch offset word → post.word? offset = some word ∧
    ∀ k, k ≠ offset → k ≠ offset + 1 → post.code[k]? = pre.code[k]?

theorem Effect.settled {before after : List (Edit × Answer)} {pre post : Chunk}
    (h : pre.Effect edit answer post)
    (hregular : pre.Regular) (hbefore : ∀ call ∈ before, call.2.Within pre) (hafter : Kept after post last) :
    Settled before edit answer after pre post last := by
  cases h with
  | @written _ byte line hwritten =>
    have hbyte : (pre.write byte line).code[pre.size]? = some byte := Array.getElem?_push_size
    have hline : (pre.write byte line).line? pre.size = some line := by
      unfold line? write size
      rw [← hregular.lines]
      exact Array.getElem?_push_size
    refine ⟨fun byte' line' heq => ?_, ?_, ?_⟩
    · cases hwritten.symm.trans heq
      refine ⟨pre.size, rfl, fun call hcall hsame => ?_, hafter.lines _ _ hline, fun hnone => ?_⟩
      · have hwithin := hbefore call hcall
        rw [hsame] at hwithin
        exact Nat.lt_irrefl _ hwithin
      · rw [hafter.code _ (by rw [size_write]; exact Nat.lt_succ_self _) hnone, hbyte]
    · rintro constant rfl
      cases hwritten
    · rintro offset word rfl
      cases hwritten
  | @added constant hroom =>
    have hindex := toNat_index hroom
    refine ⟨fun _ _ heq => (by cases heq), ?_, fun _ _ heq => (by cases heq)⟩
    rintro _ ⟨⟩
    refine .inl ⟨_, rfl, fun call hcall hsame => ?_, ?_, ?_⟩
    · have hwithin := hbefore call hcall
      rw [hsame, Answer.Within, hindex] at hwithin
      exact Nat.lt_irrefl _ hwithin
    · rw [constant?, hindex]
      exact List.getElem?_eq_none (Nat.le_refl _)
    · obtain ⟨more, hmore⟩ := hafter.constants
      rw [constant?, hindex, ← hmore]
      simp
  | rejected hfull =>
    refine ⟨fun _ _ heq => (by cases heq), ?_, fun _ _ heq => (by cases heq)⟩
    exact fun _ _ => .inr ⟨rfl, Nat.le_antisymm hregular.room hfull, rfl⟩
  | patched hinside =>
    refine ⟨fun _ _ heq => (by cases heq), fun _ heq => (by cases heq), ?_⟩
    rintro _ _ ⟨⟩
    exact ⟨word?_patch hinside _, fun k h h' => getElem?_patch h h' _⟩

theorem regular_empty : Regular {} := ⟨rfl, Nat.zero_le _⟩

/-- A call is only refused if it is to overwrite a word that is not within the code. -/
theorem edit?_eq_none_iff : chunk.edit? edit = none ↔ ∃ offset word, edit = .patch offset word ∧
    chunk.size ≤ offset + 1 := by
  cases edit with
  | write byte line | writeOp op line => simp [edit?]
  | addConstant constant =>
    simp only [edit?]
    cases chunk.addConstant? constant <;> simp
  | patch offset word => simp [edit?]

/-- A new chunk, along any calls: it has a line for each byte and never more constants than an index can tell
    apart. What a call has answered holds from then on, whatever calls come in between. Every call is
    answered but one that overwrites what is not there; and words that have no byte in common can be
    overwritten in any order. -/
theorem leads_settled (h : Leads {} calls last) :
    last.lines.size = last.code.size ∧ last.constants.length ≤ maxConstants ∧
    (∀ before edit answer after, calls = before ++ (edit, answer) :: after → ∃ pre post,
      Leads {} before pre ∧ pre.edit? edit = some (answer, post) ∧ post.Leads after last ∧
      Settled before edit answer after pre post last) ∧
    (∀ edit, last.edit? edit = none ↔ ∃ offset word, edit = .patch offset word ∧ last.size ≤ offset + 1) ∧
    ∀ offset word other word', offset + 1 < other ∨ other + 1 < offset →
      (last.patch offset word).patch other word' = (last.patch other word').patch offset word := by
  have hlast := h.lasts.regular regular_empty
  refine ⟨hlast.lines, hlast.room, ?_, fun _ => edit?_eq_none_iff, fun _ _ _ _ => patch_comm⟩
  rintro before edit answer after rfl
  obtain ⟨pre, hbefore, post, hedit, hafter⟩ := leads_append.mp h
  have hpre := hbefore.lasts
  exact ⟨pre, post, hbefore, hedit, hafter,
    (effect_of_edit? hedit).settled (hpre.regular regular_empty) hpre.within hafter.lasts.kept⟩

/-- A jump whose distance is told after it has been written, and a constant. -/
theorem leads_settled_jump :
    Leads {} ([(.writeOp .jump 1, .offset 0), (.write 0xff 1, .offset 1), (.write 0xff 2, .offset 2)] ++
        (.patch 1 0x0102, .done) :: [(.addConstant .nil, .index 0)])
      { code := #[Opcode.jump.byte, 0x01, 0x02], lines := #[1, 1, 2], constants := [.nil] } ∧
    ∃ pre post, post.word? 1 = some 0x0102 ∧
      Settled [(.writeOp .jump 1, .offset 0), (.write 0xff 1, .offset 1), (.write 0xff 2, .offset 2)]
        (.patch 1 0x0102) .done
        [(.addConstant .nil, .index 0)] pre post
        { code := #[Opcode.jump.byte, 0x01, 0x02], lines := #[1, 1, 2], constants := [.nil] } := by
  have hleads : Leads {} ([(.writeOp .jump 1, .offset 0), (.write 0xff 1, .offset 1),
      (.write 0xff 2, .offset 2)] ++ (.patch 1 0x0102, .done) :: [(.addConstant .nil, .index 0)])
      { code := #[Opcode.jump.byte, 0x01, 0x02], lines := #[1, 1, 2], constants := [.nil] } :=
    ⟨_, rfl, _, rfl, _, rfl, _, rfl, _, rfl, rfl⟩
  obtain ⟨-, -, hcalls, -⟩ := leads_settled hleads
  obtain ⟨pre, post, -, -, -, hsettled⟩ := hcalls _ _ _ _ rfl
  exact ⟨hleads, pre, post, (hsettled.patched 1 0x0102 rfl).1, hsettled⟩

end Chunk

end Lox
