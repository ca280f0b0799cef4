import Lox.Proofs.Flow.Function
import Lox.Verify

/-! # What the verifier accepts

The verifier accepts a chunk exactly if its code is a row of whole instructions whose constants exist, every
jump of the row leads to the start of an instruction or to the end of the code, and the last instruction
returns. It accepts a function exactly if it accepts the chunk of every function inside. -/

namespace Lox

namespace Instruction

/-- The distance over which a jump goes. -/
def distance? : Instruction → Option UInt16
  | jump distance | jumpIfFalse distance | loop distance => some distance
  | _ => none

variable {code : Array UInt8} {offset : Nat} {i : Instruction}

/-- An instruction is read only where all of its bytes are. -/
theorem read_within (h : read code offset = .instruction i) : offset + i.size ≤ code.size := by
  unfold read at h
  split at h
  · cases h
  · rename_i tag htag
    have hlt := (Array.getElem?_eq_some_iff.mp htag).1
    split at h
    · cases h
    · rename_i op _
      cases op with
      | nil | trueValue | falseValue | pop | equal | greater | less | add | subtract | multiply | divide
      | logicalNot | negate
      | print | ret =>
        cases h
        exact hlt
      | constant | getLocal | setLocal | getGlobal | defineGlobal | setGlobal | call =>
        dsimp only at h
        split at h
        · rename_i hoperand
          cases h
          exact (Array.getElem?_eq_some_iff.mp hoperand).1
        · cases h
      | jump | jumpIfFalse | loop =>
        dsimp only at h
        split at h
        · rename_i hlow
          cases h
          exact (Array.getElem?_eq_some_iff.mp hlow).1
        · cases h

theorem size_pos (i : Instruction) : 0 < i.size := Nat.lt_of_lt_of_le Nat.zero_lt_one (Nat.le_add_right _ _)

theorem read_eq_pastEnd (h : code.size ≤ offset) : read code offset = .pastEnd := by
  unfold read
  rw [Array.getElem?_eq_none h]

theorem le_of_read_eq_pastEnd (h : read code offset = .pastEnd) : code.size ≤ offset := by
  unfold read at h
  split at h
  · rename_i hnone
    exact Array.getElem?_eq_none_iff.mp hnone
  · split at h
    · cases h
    · rename_i op _
      cases op with
      | nil | trueValue | falseValue | pop | equal | greater | less | add | subtract | multiply | divide
      | logicalNot | negate
      | print | ret => cases h
      | constant | getLocal | setLocal | getGlobal | defineGlobal | setGlobal | call | jump | jumpIfFalse
      | loop =>
        dsimp only at h
        split at h <;> cases h

end Instruction

namespace Chunk

variable {chunk : Chunk} {offset : Nat} {items : List (Nat × Instruction)}

/-! ### Rows of instructions -/

/-- Instructions stand one after the other from `offset` to the end of the code, with the constants
    that they mention. -/
def Fills (chunk : Chunk) : (offset : Nat) → List (Nat × Instruction) → Prop
  | offset, [] => offset = chunk.size
  | offset, (place, i) :: items => place = offset ∧ Instruction.read chunk.code offset = .instruction i ∧
    chunk.constantFlaw? offset i = none ∧ chunk.Fills (offset + i.size) items

theorem Fills.mem (h : chunk.Fills offset items) {place : Nat} {i : Instruction} (hi : (place, i) ∈ items) :
    Instruction.read chunk.code place = .instruction i ∧ chunk.constantFlaw? place i = none := by
  induction items generalizing offset with
  | nil => cases hi
  | cons entry items ih =>
    obtain ⟨rfl, hread, hflaw, hrest⟩ := h
    rcases List.mem_cons.mp hi with rfl | hi
    · exact ⟨hread, hflaw⟩
    · exact ih hrest hi

/-- After each instruction of a row but the last, another one stands. -/
theorem Fills.next {last : Nat × Instruction} (h : chunk.Fills offset (items ++ [last])) {place : Nat}
    {i : Instruction} (hi : (place, i) ∈ items) : ∃ j, (place + i.size, j) ∈ items ++ [last] := by
  induction items generalizing offset with
  | nil => cases hi
  | cons entry items ih =>
    obtain ⟨rfl, -, -, hrest⟩ := h
    rcases List.mem_cons.mp hi with rfl | hi
    · obtain ⟨following, hfollowing⟩ : ∃ following, (items ++ [last]).head? = some following := by
        cases items <;> exact ⟨_, rfl⟩
      obtain ⟨rest, hitems⟩ := List.head?_eq_some_iff.mp hfollowing
      have hplace : chunk.Fills (place + i.size) (following :: rest) := hitems ▸ hrest
      refine ⟨following.2, ?_⟩
      rw [List.cons_append, hitems, ← hplace.1]
      exact List.mem_cons_of_mem _ List.mem_cons_self
    · obtain ⟨j, hj⟩ := ih hrest hi
      exact ⟨j, List.mem_cons_of_mem _ hj⟩

theorem Fills.length_le (h : chunk.Fills offset items) : offset + items.length ≤ chunk.size := by
  induction items generalizing offset with
  | nil => exact Nat.le_of_eq h
  | cons entry items ih =>
    obtain ⟨-, -, -, hrest⟩ := h
    have hsize := entry.2.size_pos
    have hlength := ih hrest
    rw [List.length_cons]
    omega

theorem Fills.instructionsFrom (h : chunk.Fills offset items) {count : Nat} (hcount : items.length ≤ count)
    (found : Array (Nat × Instruction)) :
    chunk.instructionsFrom offset found count = .ok (found ++ items.toArray) := by
  induction items generalizing offset count found with
  | nil =>
    cases count with
    | zero => simp [Chunk.instructionsFrom]
    | succ count => simp [Chunk.instructionsFrom, Instruction.read_eq_pastEnd (Nat.le_of_eq (Eq.symm h))]
  | cons entry items ih =>
    obtain ⟨rfl, hread, hflaw, hrest⟩ := h
    obtain ⟨count, rfl⟩ : ∃ rest, count = rest + 1 := ⟨count - 1, by rw [List.length_cons] at hcount; omega⟩
    rw [Chunk.instructionsFrom, hread]
    dsimp only
    rw [hflaw]
    dsimp only
    rw [ih hrest (Nat.le_of_succ_le_succ hcount)]
    simp

theorem fills_of_instructionsFrom {found result : Array (Nat × Instruction)} {count : Nat}
    (hcount : chunk.size ≤ offset + count) (hoffset : offset ≤ chunk.size)
    (h : chunk.instructionsFrom offset found count = .ok result) :
    ∃ items, chunk.Fills offset items ∧ result = found ++ items.toArray := by
  induction count generalizing offset found with
  | zero =>
    cases h
    exact ⟨[], Nat.le_antisymm hoffset hcount, by simp⟩
  | succ count ih =>
    rw [Chunk.instructionsFrom] at h
    split at h
    · rename_i hread
      cases h
      exact ⟨[], Nat.le_antisymm hoffset (Instruction.le_of_read_eq_pastEnd hread), by simp⟩
    · cases h
    · cases h
    · rename_i i hread
      split at h
      · cases h
      · rename_i hflaw
        have hsize := i.size_pos
        obtain ⟨items, hfills, rfl⟩ := ih (by omega) (Instruction.read_within hread) h
        exact ⟨(offset, i) :: items, ⟨rfl, hread, hflaw, hfills⟩, by simp⟩

/-- The reader of instructions finds exactly the row that fills the code. -/
theorem instructions_eq_ok {found : Array (Nat × Instruction)} :
    chunk.instructions = .ok found ↔ chunk.Fills 0 found.toList := by
  constructor
  · intro h
    obtain ⟨items, hfills, rfl⟩ := fills_of_instructionsFrom (by omega) (Nat.zero_le _) h
    simpa using hfills
  · intro h
    have hlength := h.length_le
    rw [instructions, h.instructionsFrom (by omega)]
    simp

/-! ### Landings -/

theorem getElem?_mark {marks : Array Bool} {place target : Nat} :
    (marks.setIfInBounds place true)[target]? = some true ↔
    marks[target]? = some true ∨ (target < marks.size ∧ place = target) := by
  rw [Array.getElem?_setIfInBounds]
  by_cases heq : place = target
  · subst heq
    by_cases hlt : place < marks.size
    · simp [hlt]
    · simp [hlt]
  · simp [heq]

theorem getElem?_foldl_mark {marks : Array Bool} {target : Nat} :
    (items.foldl (fun marks (entry : Nat × Instruction) => marks.setIfInBounds entry.1 true) marks)[target]? =
      some true ↔ marks[target]? = some true ∨ (target < marks.size ∧ ∃ i, (target, i) ∈ items) := by
  induction items generalizing marks with
  | nil => simp
  | cons entry items ih =>
    rw [List.foldl_cons, ih, getElem?_mark, Array.size_setIfInBounds]
    constructor
    · rintro ((h | ⟨hlt, rfl⟩) | ⟨hlt, i, hi⟩)
      · exact Or.inl h
      · exact Or.inr ⟨hlt, entry.2, List.mem_cons_self⟩
      · exact Or.inr ⟨hlt, i, List.mem_cons_of_mem _ hi⟩
    · rintro (h | ⟨hlt, i, hi⟩)
      · exact Or.inl (Or.inl h)
      · rcases List.mem_cons.mp hi with rfl | hi
        · exact Or.inl (Or.inr ⟨hlt, rfl⟩)
        · exact Or.inr ⟨hlt, i, hi⟩

/-- The marked places are the end of the code and the starts of its instructions. -/
theorem getElem?_landings (h : chunk.Fills 0 items) {target : Nat} :
    (chunk.landings items.toArray)[target]? = some true ↔ target = chunk.size ∨ ∃ i, (target, i) ∈ items := by
  have hwithin : ∀ i, (target, i) ∈ items → target < chunk.size + 1 := by
    intro i hi
    have hread := Instruction.read_within (h.mem hi).1
    have hsize : chunk.size = chunk.code.size := rfl
    omega
  rw [landings, List.foldl_toArray, getElem?_foldl_mark, getElem?_mark, Array.size_setIfInBounds,
    Array.size_replicate]
  constructor
  · rintro ((hnone | ⟨-, rfl⟩) | ⟨-, hi⟩)
    · simp [Array.getElem?_replicate] at hnone
    · exact Or.inl rfl
    · exact Or.inr hi
  · rintro (rfl | ⟨i, hi⟩)
    · exact Or.inl (Or.inr ⟨Nat.lt_succ_self _, rfl⟩)
    · exact Or.inr ⟨hwithin i hi, i, hi⟩

/-! ### Chunks -/

/-- A row of instructions makes the whole of a chunk: every jump in it lands, and the last one returns. -/
structure Sound (chunk : Chunk) (items : List (Nat × Instruction)) : Prop where
  lines : chunk.code.size = chunk.lines.size
  fills : chunk.Fills 0 items
  lands : ∀ offset i, (offset, i) ∈ items → i.distance? ≠ none → ∃ target, i.target? offset = some target ∧
    (target = chunk.size ∨ ∃ j, (target, j) ∈ items)
  last : ∃ before offset, items = before ++ [(offset, .ret)]

theorem landsOn_iff {marks : Array Bool} {i : Instruction} : landsOn marks offset i = true ↔
    (i.distance? ≠ none → ∃ target, i.target? offset = some target ∧ marks[target]? = some true) := by
  cases i with
  | jump | jumpIfFalse | loop =>
    unfold landsOn
    dsimp only
    split
    · rename_i target htarget
      simp [Instruction.distance?, htarget]
    · rename_i htarget
      simp [Instruction.distance?, htarget]
  | _ => exact ⟨fun _ h => absurd rfl h, fun _ => rfl⟩

theorem back?_eq_ret {found : Array (Nat × Instruction)} :
    found.back?.map (·.2) = some .ret ↔ ∃ before offset, found.toList = before ++ [(offset, .ret)] := by
  rw [← Array.getLast?_toList, Option.map_eq_some_iff]
  constructor
  · rintro ⟨⟨offset, i⟩, hlast, rfl⟩
    obtain ⟨before, hitems⟩ := List.getLast?_eq_some_iff.mp hlast
    exact ⟨before, offset, hitems⟩
  · rintro ⟨before, offset, hitems⟩
    exact ⟨(offset, .ret), by rw [hitems, List.getLast?_append]; rfl, rfl⟩

/-- The verifier accepts a chunk exactly if a sound row of instructions makes it. -/
theorem verify_eq_ok : chunk.verify = .ok () ↔ ∃ found, chunk.instructions = .ok found ∧
    chunk.Sound found.toList := by
  constructor
  · intro h
    unfold verify at h
    split at h
    · rename_i hlines
      split at h
      · cases h
      · rename_i found hfound
        have hfills := instructions_eq_ok.mp hfound
        dsimp only at h
        split at h
        · cases h
        · rename_i hlands
          split at h
          · rename_i hlast
            refine ⟨found, hfound, hlines, hfills, fun offset i hi hjump => ?_, back?_eq_ret.mp hlast⟩
            have hon := Array.find?_eq_none.mp hlands (offset, i) (Array.mem_def.mpr hi)
            obtain ⟨target, htarget, hmark⟩ := landsOn_iff.mp (by simpa using hon) hjump
            exact ⟨target, htarget, (getElem?_landings hfills).mp hmark⟩
          · cases h
    · cases h
  · rintro ⟨found, hfound, hsound⟩
    have hlands : found.find? (fun entry => !landsOn (chunk.landings found) entry.1 entry.2) = none := by
      refine Array.find?_eq_none.mpr fun entry hentry => ?_
      have hon : landsOn (chunk.landings found) entry.1 entry.2 = true := by
        refine landsOn_iff.mpr fun hjump => ?_
        obtain ⟨target, htarget, hplace⟩ := hsound.lands entry.1 entry.2 (Array.mem_def.mp hentry) hjump
        exact ⟨target, htarget, (getElem?_landings hsound.fills).mpr hplace⟩
      simp [hon]
    unfold verify
    rw [if_pos hsound.lines, hfound]
    dsimp only
    rw [hlands]
    dsimp only
    rw [if_pos (back?_eq_ret.mpr hsound.last)]

/-- Where an instruction of a sound row leads, another one starts, or a jump to the end of the code ends. -/
theorem Sound.leads (h : chunk.Sound items) {i : Instruction} (hi : (offset, i) ∈ items) {place : Nat}
    (hplace : place ∈ i.leads offset) :
    (∃ j, (place, j) ∈ items) ∨ (place = chunk.size ∧ i.target? offset = some chunk.size) := by
  obtain ⟨before, last, hitems⟩ := h.last
  have hnext : i ≠ .ret → ∃ j, (offset + i.size, j) ∈ items := by
    intro hne
    rw [hitems] at hi ⊢
    rcases List.mem_append.mp hi with hi | hi
    · exact (hitems ▸ h.fills).next hi
    · cases List.mem_singleton.mp hi
      exact absurd rfl hne
  have hland : i.distance? ≠ none → ∀ target, i.target? offset = some target →
      (∃ j, (target, j) ∈ items) ∨ (target = chunk.size ∧ i.target? offset = some chunk.size) := by
    intro hjump target htarget
    obtain ⟨target', htarget', hlands⟩ := h.lands offset i hi hjump
    rw [htarget'] at htarget
    cases htarget
    rcases hlands with rfl | hj
    · exact Or.inr ⟨rfl, htarget'⟩
    · exact Or.inl hj
  cases i with
  | ret => cases hplace
  | jump distance =>
    rw [List.mem_singleton.mp hplace]
    exact hland (Option.some_ne_none _) _ rfl
  | jumpIfFalse distance =>
    rcases List.mem_cons.mp hplace with rfl | hplace
    · exact Or.inl (hnext (fun h => by cases h))
    · rw [List.mem_singleton.mp hplace]
      exact hland (Option.some_ne_none _) _ rfl
  | loop distance =>
    obtain ⟨target, htarget, -⟩ := h.lands offset _ hi (Option.some_ne_none _)
    have hback : distance.toNat ≤ offset + 3 := by
      by_contra hlt
      rw [Instruction.target?, if_neg hlt] at htarget
      cases htarget
    rw [List.mem_singleton.mp hplace]
    exact hland (Option.some_ne_none _) _ (if_pos hback)
  | _ =>
    rw [List.mem_singleton.mp hplace]
    exact Or.inl (hnext (fun h => by cases h))

end Chunk

/-! ### Functions -/

namespace Function

theorem verifyEach_eq_ok {functions : List Function} :
    verifyEach functions = .ok () ↔ ∀ f ∈ functions, f.chunk.verify = .ok () := by
  induction functions with
  | nil => exact ⟨fun _ f hf => absurd hf List.not_mem_nil, fun _ => rfl⟩
  | cons f functions ih =>
    rw [verifyEach, List.forall_mem_cons, ← ih]
    split
    · rename_i flaw hflaw
      constructor
      · intro h
        cases h
      · rintro ⟨hok, -⟩
        rw [hflaw] at hok
        cases hok
    · rename_i hok
      exact ⟨fun h => ⟨hok, h⟩, fun h => h.2⟩

/-- The verifier accepts a function exactly if it accepts the chunk of every function inside. -/
theorem verify_eq_ok {f : Function} : f.verify = .ok () ↔ ∀ g ∈ f.all, g.chunk.verify = .ok () :=
  verifyEach_eq_ok

/-- A function that the verifier accepts. -/
def Verified (f : Function) : Prop := f.verify = .ok ()

theorem Verified.chunk {f : Function} (h : f.Verified) : f.chunk.verify = .ok () :=
  verify_eq_ok.mp h f f.mem_all_self

theorem Verified.constant {f g : Function} (h : f.Verified) (hg : .function g ∈ f.chunk.constants) :
    g.Verified :=
  verify_eq_ok.mpr fun k hk => verify_eq_ok.mp h k (mem_all.mpr (Or.inr ⟨g, hg, hk⟩))

end Function

end Lox
