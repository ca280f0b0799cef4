import Mathlib.Data.List.Pairwise
import Lox.Proofs.Chunk
import Lox.Proofs.Compilation.Recovery
import Lox.Proofs.Compilation.Watching
import Lox.Proofs.Compilation.Writing
import Lox.Proofs.Tiling

/-! # Jumps, scopes and counts

Whatever the source is, valid or not, every part of the compiler leaves the jumps that are waiting and the
scopes that are open as it has found them. So a placeholder is filled in once, while it is still a placeholder
in the code of its own function, a loop goes back to a place that has been written, and a scope is closed only
where one is open. The slot of the function that is called stays at the bottom of the locals, since only the
locals of closed scopes are dropped and it belongs to none. -/

namespace Lox

/-! ### Elementary changes -/

namespace Compiler

theorem code_emit (c : Compiler) (i : Instruction) :
    (c.emit i).body.function.chunk.code = c.body.function.chunk.code ++ i.bytes.toArray := by
  rw [emit_eq c i 0]
  simp [Body.add, Chunk.add, Fragment.bytes, Fragment.single]

/-- The code of the function that is being compiled has grown at its end, if at all; its locals and scopes are
    the same, and a panic has left a diagnostic. -/
structure Grows (c d : Compiler) : Prop where
  code : ∃ more, d.body.function.chunk.code = c.body.function.chunk.code ++ more
  locals : d.body.locals = c.body.locals
  depth : d.body.depth = c.body.depth
  failed : c.Failed → d.Failed
  panicking : (c.panicking = true → c.Failed) → d.panicking = true → d.Failed

namespace Grows

variable {c d e : Compiler}

theorem of_body (hbody : d.body = c.body) (hfailed : c.Failed → d.Failed)
    (hpanicking : (c.panicking = true → c.Failed) → d.panicking = true → d.Failed) : Grows c d where
  code := ⟨#[], by rw [hbody, Array.append_empty]⟩
  locals := by rw [hbody]
  depth := by rw [hbody]
  failed := hfailed
  panicking := hpanicking

theorem refl (c : Compiler) : Grows c c := of_body rfl id id

theorem trans (h : Grows c d) (h' : Grows d e) : Grows c e where
  code := by
    obtain ⟨more, hmore⟩ := h.code
    obtain ⟨yet, hyet⟩ := h'.code
    exact ⟨more ++ yet, by rw [hyet, hmore, Array.append_assoc]⟩
  locals := h'.locals.trans h.locals
  depth := h'.depth.trans h.depth
  failed := h'.failed ∘ h.failed
  panicking := h'.panicking ∘ h.panicking

theorem codeSize_le (h : Grows c d) : c.codeSize ≤ d.codeSize := by
  obtain ⟨more, hmore⟩ := h.code
  unfold Compiler.codeSize Chunk.size
  rw [hmore, Array.size_append]
  exact Nat.le_add_right _ _

theorem reportAt (c : Compiler) (token : Token) (cause : Diagnostic.Cause) :
    Grows c (c.reportAt token cause) := by
  unfold Compiler.reportAt
  split
  · exact refl c
  · exact of_body rfl (fun _ => by simp [Failed]) fun _ _ => by simp [Failed]

theorem report (c : Compiler) (cause : Diagnostic.Cause) : Grows c (c.report cause) := reportAt c _ cause

theorem shift (c : Compiler) (tokens : List Token) : Grows c (c.shift tokens) := by
  induction tokens generalizing c with
  | nil => exact of_body rfl id id
  | cons token tokens ih =>
    unfold Compiler.shift
    split
    · exact (reportAt c _ _).trans (ih _)
    · exact of_body rfl id id

theorem accept (c : Compiler) : Grows c c.accept := by
  have hmoved : Grows c { c with previous := c.current } := of_body rfl id id
  exact hmoved.trans (shift _ _)

theorem expect (c : Compiler) (kind : Token.Kind) (what : Diagnostic.Expectation) :
    Grows c (c.expect kind what) := by
  unfold Compiler.expect
  split
  · exact accept c
  · exact reportAt c _ _

theorem emit (c : Compiler) (i : Instruction) : Grows c (c.emit i) := by
  rw [emit_eq c i 0]
  exact ⟨⟨_, rfl⟩, rfl, rfl, id, id⟩

theorem emitBareReturn (c : Compiler) : Grows c c.emitBareReturn := (emit c _).trans (emit _ _)

theorem finish (c : Compiler) : Grows c c.finish.2 := by
  unfold Compiler.finish
  dsimp only
  split
  · exact (emitBareReturn c).trans (of_body rfl id id)
  · exact emitBareReturn c

theorem addConstant (c : Compiler) (constant : Constant) : Grows c (c.addConstant constant).2 := by
  unfold Compiler.addConstant
  split
  · rename_i index chunk hadded
    have hcode : chunk.code = c.body.function.chunk.code := by
      unfold Chunk.addConstant? at hadded
      dsimp only at hadded
      split at hadded
      · cases hadded
        rfl
      · cases hadded
    exact ⟨⟨#[], by rw [Array.append_empty]; exact hcode⟩, rfl, rfl, id, id⟩
  · exact report c _

theorem emitConstant (c : Compiler) (constant : Constant) : Grows c (c.emitConstant constant) :=
  (addConstant c constant).trans (emit _ _)

theorem nameConstant (c : Compiler) (name : Token) : Grows c (c.nameConstant name).2 := addConstant c _

theorem resolve (c : Compiler) (name : Token) : Grows c (c.resolve name).2 := by
  unfold Compiler.resolve
  split
  · exact refl c
  · dsimp only
    split
    · exact report c _
    · exact refl c

theorem writeByte (c : Compiler) (byte : UInt8) : Grows c (c.writeByte byte) :=
  ⟨⟨#[byte], by unfold Compiler.writeByte Chunk.write; exact Array.push_eq_append⟩, rfl, rfl, id, id⟩

theorem emitLoop (c : Compiler) (start : Nat) : Grows c (c.emitLoop start) := by
  unfold Compiler.emitLoop
  dsimp only
  refine Grows.trans ?_ ((writeByte _ _).trans (writeByte _ _))
  split
  · exact (writeByte c _).trans (report _ _)
  · exact writeByte c _

end Grows

end Compiler

/-! ### Notes of a compilation in good order -/

/-- The slot of the function that is called is at the bottom of the locals, and there are no more of them than
    an operand can tell apart. -/
def Body.Slotted (b : Body) : Prop := b.locals.getLast? = some ⟨"", some 0⟩ ∧
    b.locals.length ≤ Compiler.maxLocals

theorem Body.slotted_start (isScript : Bool) (name : Option String) : (Body.start isScript name).Slotted :=
  ⟨rfl, by simp [start, Compiler.maxLocals]⟩

/-- The slot of the function that is called belongs to no scope that can be closed. -/
theorem Body.Slotted.dropScope {b : Body} (h : b.Slotted) (depth : Nat) :
    { b with locals := b.locals.dropWhile (Local.isWithin (depth + 1)) }.Slotted := by
  obtain ⟨hbottom, hroom⟩ := h
  obtain ⟨above, habove⟩ := List.getLast?_eq_some_iff.mp hbottom
  have hstays : ([⟨"", some 0⟩] : List Local).dropWhile (Local.isWithin (depth + 1)) = [⟨"", some 0⟩] := rfl
  refine ⟨?_, Nat.le_trans (List.length_dropWhile_le _ _) hroom⟩
  show (b.locals.dropWhile (Local.isWithin (depth + 1))).getLast? = _
  rw [habove, List.dropWhile_append, hstays]
  split <;> simp

theorem Body.Slotted.push {b : Body} (h : b.Slotted) (hroom : b.locals.length ≠ Compiler.maxLocals)
    (loc : Local) :
    { b with locals := loc :: b.locals }.Slotted ∧ 2 ≤ (loc :: b.locals).length := by
  obtain ⟨above, habove⟩ := List.getLast?_eq_some_iff.mp h.1
  refine ⟨⟨?_, Nat.lt_of_le_of_ne h.2 hroom⟩, by simp [habove]⟩
  show (loc :: b.locals).getLast? = _
  rw [habove, ← List.cons_append, List.getLast?_append]
  rfl

/-- If a scope is open, the innermost local is not the slot of the function that is called. -/
def Body.Named (b : Body) : Prop := 0 < b.depth → 2 ≤ b.locals.length

/-- The word at a place of the code is still the placeholder of a jump. -/
def Compiler.Holds (c : Compiler) (place : Nat) : Prop :=
  place + 2 ≤ c.codeSize ∧ c.body.function.chunk.word? place = some 0xffff

/-- The placeholder of a jump that was just written is at the end of the code. -/
theorem Compiler.holds_emit (c : Compiler) {jump : UInt16 → Instruction} {op : UInt8}
    (hjump : (jump 0xffff).bytes = [op, 0xff, 0xff]) :
    (c.emit (jump 0xffff)).codeSize = c.codeSize + 3 ∧ (c.emit (jump 0xffff)).Holds (c.codeSize + 1) := by
  have hcode := c.code_emit (jump 0xffff)
  rw [hjump] at hcode
  have hsize : (c.emit (jump 0xffff)).codeSize = c.codeSize + 3 := by
    unfold codeSize Chunk.size
    rw [hcode, Array.size_append]
    rfl
  have hlast (k : Nat) : (c.emit (jump 0xffff)).body.function.chunk.code[c.codeSize + k]? =
      ([op, 0xff, 0xff] : List UInt8)[k]? := by
    show _[c.body.function.chunk.code.size + k]? = _
    rw [hcode, Array.getElem?_append_right (Nat.le_add_right _ _), Nat.add_sub_cancel_left,
      List.getElem?_toArray]
  refine ⟨hsize, by omega, ?_⟩
  unfold Chunk.word?
  rw [hlast 1, Nat.add_assoc, hlast 2]
  rfl

/-- What is about to be done is in order: a jump that was written has its placeholder at the end of the code,
    a jump that is to be filled in is waiting, once, and still holds its placeholder, a loop goes back to a
    place in the code, a scope that is to be closed is open, a count that is to go up has room, and no jump of
    a complete function is waiting. -/
def Note.Sound : Note → Prop
  | opened c waiting place => place + 2 = c.codeSize ∧ place ∉ waiting
  | closing c waiting place => place ∈ waiting ∧ waiting.Nodup ∧ c.Holds place
  | looping c start => start ≤ c.codeSize
  | leaving c => 1 ≤ c.body.depth
  | inScope c => c.body.Slotted
  | counting count => count.toNat + 1 < UInt8.size
  | completed _ waiting _ => waiting = []
  | _ => True

/-- No jump of a complete function was left with its placeholder. -/
def Note.Filled : Note → Prop
  | completed _ _ stranded => stranded = []
  | _ => True

namespace Watched

/-- The jumps that are waiting hold their placeholders, the later ones further on, the locals are in order,
    and so is what was noted. Jumps were left unfilled only if there is a diagnostic. -/
structure Balanced (w : Watched) : Prop where
  holds : ∀ place ∈ w.waiting, w.compiler.Holds place
  apart : w.waiting.Pairwise fun later earlier => earlier + 2 ≤ later
  slotted : w.compiler.body.Slotted
  panicking : w.compiler.panicking = true → w.compiler.Failed
  filled : w.compiler.Failed ∨ (w.stranded = [] ∧ ∀ note ∈ w.notes, note.Filled)
  notes : ∀ note ∈ w.notes, note.Sound

theorem Balanced.nodup {w : Watched} (h : w.Balanced) : w.waiting.Nodup := h.apart.imp fun hle heq => by omega

theorem Balanced.apart_of_ne {w : Watched} (h : w.Balanced) {place other : Nat} (hother : other ∈ w.waiting)
    (hplace : place ∈ w.waiting) (hne : other ≠ place) : other + 2 ≤ place ∨ place + 2 ≤ other := by
  have hsymm : Std.Symm fun a b : Nat => a + 2 ≤ b ∨ b + 2 ≤ a := ⟨fun _ _ => Or.symm⟩
  have hboth : w.waiting.Pairwise fun a b => a + 2 ≤ b ∨ b + 2 ≤ a := h.apart.imp fun hle => Or.inr hle
  exact hboth.forall hother hplace hne

/-- From a state, another one in good order has been reached, with these jumps waiting and so many scopes
    open. The code has not become shorter, and if the locals are `fixed`, they are the same. -/
structure Reached (fixed : Prop) (w : Watched) (waiting : List Nat) (depth : Nat) (d : Watched) : Prop where
  balanced : d.Balanced
  waiting_eq : d.waiting = waiting
  depth_eq : d.compiler.body.depth = depth
  grown : w.compiler.codeSize ≤ d.compiler.codeSize
  failed : w.compiler.Failed → d.compiler.Failed
  locals : fixed → d.compiler.body.locals = w.compiler.body.locals

/-- A part of the compilation that leaves the jumps that are waiting and the open scopes as they are. -/
def Keeps (fixed : Prop) (f : Watched → Watched) : Prop :=
  ∀ w, w.Balanced → Reached fixed w w.waiting w.compiler.body.depth (f w)

theorem Keeps.any {f : Watched → Watched} (hf : Keeps True f) {fixed : Prop} : Keeps fixed f :=
  fun w h => { hf w h with locals := fun _ => (hf w h).locals trivial }

theorem Balanced.reached {w : Watched} (h : w.Balanced) (fixed : Prop) :
    Reached fixed w w.waiting w.compiler.body.depth w :=
  ⟨h, rfl, rfl, Nat.le_refl _, id, fun _ => rfl⟩

namespace Reached

variable {fixed : Prop} {w d : Watched} {waiting : List Nat} {depth : Nat}

theorem trans (h : Reached fixed w waiting depth d) {waiting' : List Nat} {depth' : Nat} {e : Watched}
    (h' : Reached fixed d waiting' depth' e) : Reached fixed w waiting' depth' e where
  balanced := h'.balanced
  waiting_eq := h'.waiting_eq
  depth_eq := h'.depth_eq
  grown := Nat.le_trans h.grown h'.grown
  failed := h'.failed ∘ h.failed
  locals hfixed := (h'.locals hfixed).trans (h.locals hfixed)

theorem andThen (h : Reached fixed w waiting depth d) {f : Watched → Watched} (hf : Keeps fixed f) :
    Reached fixed w waiting depth (f d) := by
  obtain rfl := h.waiting_eq
  obtain rfl := h.depth_eq
  exact h.trans (hf d h.balanced)

theorem note (h : Reached fixed w waiting depth d) (note : Note) (hsound : note.Sound) (hfilled : note.Filled) :
    Reached fixed w waiting depth (d.note note) where
  balanced :=
    { h.balanced with
      filled := h.balanced.filled.imp_right fun hall => ⟨hall.1, List.forall_mem_cons.mpr ⟨hfilled, hall.2⟩⟩
      notes := List.forall_mem_cons.mpr ⟨hsound, h.balanced.notes⟩ }
  waiting_eq := h.waiting_eq
  depth_eq := h.depth_eq
  grown := h.grown
  failed := h.failed
  locals := h.locals

theorem noteScope (h : Reached fixed w waiting depth d) : Reached fixed w waiting depth d.noteScope :=
  h.note (.inScope d.compiler) h.balanced.slotted trivial

/-- What changes nothing but the end of the code. -/
theorem grow (h : Reached fixed w waiting depth d) {c : Compiler} (hgrows : d.compiler.Grows c) :
    Reached fixed w waiting depth { d with compiler := c } where
  balanced := by
    obtain ⟨more, hmore⟩ := hgrows.code
    refine { h.balanced with holds := fun place hplace => ?_, slotted := ?_, panicking := ?_, filled := ?_ }
    · obtain ⟨hle, hword⟩ := h.balanced.holds place hplace
      exact ⟨Nat.le_trans hle hgrows.codeSize_le, by rw [Chunk.word?_of_append hmore hle, hword]⟩
    · unfold Body.Slotted
      rw [hgrows.locals]
      exact h.balanced.slotted
    · exact hgrows.panicking h.balanced.panicking
    · exact h.balanced.filled.imp_left hgrows.failed
  waiting_eq := h.waiting_eq
  depth_eq := hgrows.depth.trans h.depth_eq
  grown := Nat.le_trans h.grown hgrows.codeSize_le
  failed := hgrows.failed ∘ h.failed
  locals hfixed := hgrows.locals.trans (h.locals hfixed)

theorem accept (h : Reached fixed w waiting depth d) : Reached fixed w waiting depth d.accept :=
  h.grow (.accept _)

theorem expect (h : Reached fixed w waiting depth d) (kind : Token.Kind) (what : Diagnostic.Expectation) :
    Reached fixed w waiting depth (d.expect kind what) := h.grow (.expect _ _ _)

theorem report (h : Reached fixed w waiting depth d) (cause : Diagnostic.Cause) :
    Reached fixed w waiting depth (d.map (·.report cause)) := h.grow (.report _ _)

theorem emit (h : Reached fixed w waiting depth d) (i : Instruction) :
    Reached fixed w waiting depth (d.emit i) :=
  h.grow (.emit _ _)

theorem emitAll (h : Reached fixed w waiting depth d) (instructions : List Instruction) :
    Reached fixed w waiting depth (instructions.foldl Watched.emit d) := by
  induction instructions generalizing d with
  | nil => exact h
  | cons i instructions ih => exact ih (h.emit i)

/-! ### Jumps -/

/-- A jump that was just written waits with its placeholder at the end of the code. -/
theorem openJump (h : Reached fixed w waiting depth d) (jump : UInt16 → Instruction) {op : UInt8}
    (hjump : (jump 0xffff).bytes = [op, 0xff, 0xff]) :
    Reached fixed w ((d.openJump jump).1 :: waiting) depth (d.openJump jump).2 := by
  obtain ⟨hsize, hnew⟩ := d.compiler.holds_emit hjump
  have hplace : (d.openJump jump).1 = d.compiler.codeSize + 1 := by
    show (d.compiler.emit (jump 0xffff)).codeSize - 2 = _
    omega
  rw [← hplace] at hnew
  have hbefore : ∀ earlier ∈ d.waiting, earlier + 2 ≤ (d.openJump jump).1 := by
    intro earlier hearlier
    have hle := (h.balanced.holds earlier hearlier).1
    omega
  have hsound : (Note.opened (d.compiler.emit (jump 0xffff)) d.waiting (d.openJump jump).1).Sound :=
    ⟨by omega, fun hmem => by have hle := hbefore _ hmem; omega⟩
  have hopened := (h.emit (jump 0xffff)).note (.opened _ d.waiting (d.openJump jump).1) hsound trivial
  obtain rfl := h.waiting_eq
  refine { hopened with waiting_eq := rfl, balanced := { hopened.balanced with holds := ?_, apart := ?_ } }
  · exact List.forall_mem_cons.mpr ⟨hnew, hopened.balanced.holds⟩
  · exact List.pairwise_cons.mpr ⟨hbefore, h.balanced.apart⟩

/-- A jump that is about to be filled in does not wait any longer. -/
theorem closing (h : Reached fixed w waiting depth d) {place : Nat} (hplace : place ∈ waiting) :
    Reached fixed w (waiting.erase place) depth
      { d with waiting := d.waiting.erase place, notes := .closing d.compiler d.waiting place :: d.notes } := by
  obtain rfl := h.waiting_eq
  have hsound : (Note.closing d.compiler d.waiting place).Sound :=
    ⟨hplace, h.balanced.nodup, h.balanced.holds place hplace⟩
  have hnoted := h.note (.closing d.compiler d.waiting place) hsound trivial
  refine { hnoted with waiting_eq := rfl, balanced := { hnoted.balanced with holds := ?_, apart := ?_ } }
  · exact fun other hother => h.balanced.holds other (List.mem_of_mem_erase hother)
  · exact h.balanced.apart.sublist List.erase_sublist

/-- A word that overlaps with no placeholder is overwritten. -/
theorem patch (h : Reached fixed w waiting depth d) {place : Nat}
    (hapart : ∀ other ∈ waiting, other + 2 ≤ place ∨ place + 2 ≤ other) (word : UInt16) :
    Reached fixed w waiting depth (d.map fun c => { c with
      body.function.chunk := c.body.function.chunk.patch place word }) := by
  obtain rfl := h.waiting_eq
  have hsize := Chunk.size_patch d.compiler.body.function.chunk place word
  refine { h with
    grown := Nat.le_trans h.grown (Nat.le_of_eq hsize.symm)
    balanced := { h.balanced with holds := ?_ } }
  intro other hother
  obtain ⟨hle, hword⟩ := h.balanced.holds other hother
  exact ⟨Nat.le_trans hle (Nat.le_of_eq hsize.symm),
    (Chunk.word?_patch_of_apart (hapart other hother) word).trans hword⟩

/-- Jumps may be left unfilled after a diagnostic. -/
theorem strand (h : Reached fixed w waiting depth d) (hfailed : d.compiler.Failed) (stranded : List Nat) :
    Reached fixed w waiting depth { d with stranded } :=
  { h with balanced := { h.balanced with filled := Or.inl hfailed } }

/-- A jump that is waiting is filled in, or it is reported to lead too far; it does not wait any longer. -/
theorem closeJump (h : Reached fixed w waiting depth d) {place : Nat} (hplace : place ∈ waiting) :
    Reached fixed w (waiting.erase place) depth (d.closeJump place) := by
  have hclosing := h.closing hplace
  unfold Watched.closeJump Compiler.closeJump
  by_cases hfits : d.compiler.codeSize - place - 2 ≤ Compiler.maxJump
  · rw [if_pos hfits, if_pos hfits]
    obtain rfl := h.waiting_eq
    refine hclosing.patch (fun other hother => ?_) _
    obtain ⟨hne, hmem⟩ := (h.balanced.nodup.mem_erase_iff).mp hother
    exact h.balanced.apart_of_ne hmem hplace hne
  · rw [if_neg hfits, if_neg hfits]
    -- the diagnostic is there even in a panic, since what caused the panic has left one
    have hfailed : (d.compiler.report .jumpTooFar).Failed :=
      (Compiler.Grows.report _ _).panicking h.balanced.panicking (Compiler.reportAt_panicking _ _)
    exact (hclosing.report .jumpTooFar).strand hfailed _

theorem closeFirst {place : Nat} (h : Reached fixed w (place :: waiting) depth d) :
    Reached fixed w waiting depth (d.closeJump place) := by
  have hclosed := h.closeJump List.mem_cons_self
  rwa [List.erase_cons_head] at hclosed

/-- The later of two jumps goes on waiting. -/
theorem closeSecond {first second : Nat} (h : Reached fixed w (first :: second :: waiting) depth d) :
    Reached fixed w (first :: waiting) depth (d.closeJump second) := by
  have hapart := h.balanced.apart
  rw [h.waiting_eq] at hapart
  have hle := (List.pairwise_cons.mp hapart).1 second List.mem_cons_self
  have hclosed := h.closeJump (List.mem_cons_of_mem _ List.mem_cons_self)
  have hne : (first == second) = false := beq_false_of_ne (by omega)
  rwa [List.erase_cons_tail (by simp [hne]), List.erase_cons_head] at hclosed

theorem emitLoop (h : Reached fixed w waiting depth d) {start : Nat} (hstart : start ≤ d.compiler.codeSize) :
    Reached fixed w waiting depth (d.emitLoop start) := by
  exact (h.note (.looping d.compiler start) hstart trivial).grow (.emitLoop _ _)

/-! ### Scopes and variables -/

theorem openScope (h : Reached fixed w waiting depth d) :
    Reached fixed w waiting (depth + 1) (d.map Compiler.openScope) :=
  { h with
    balanced := { h.balanced with }
    depth_eq := congrArg (· + 1) h.depth_eq }

/-- Other locals with the slot of the function that is called at their bottom. -/
theorem setLocals (h : Reached False w waiting depth d) {locals : List Local}
    (hslotted : ({ d.compiler.body with locals } : Body).Slotted) :
    Reached False w waiting depth (d.map fun c => { c with body.locals := locals }) :=
  { h with
    balanced := { h.balanced with slotted := hslotted }
    locals := False.elim }

theorem emitPops (h : Reached fixed w waiting depth d) (dropped : List Local) :
    Reached fixed w waiting depth (d.map fun c => dropped.foldl (fun c _ => c.emit .pop) c) := by
  induction dropped generalizing d with
  | nil => exact h
  | cons _ dropped ih => exact ih (h.emit .pop)

theorem closeScope (h : Reached False w waiting (depth + 1) d) :
    Reached False w waiting depth d.closeScope := by
  have hopen : 1 ≤ d.compiler.body.depth := by
    rw [h.depth_eq]
    exact Nat.le_add_left 1 depth
  have hdropped := (h.note (.leaving d.compiler) hopen trivial).setLocals
    (h.balanced.slotted.dropScope (d.compiler.body.depth - 1))
  have hclosed : Reached False w waiting depth ((d.note (.leaving d.compiler)).map fun c => { c with
      body.locals := d.compiler.body.locals.dropWhile (Local.isWithin (d.compiler.body.depth - 1 + 1))
      body.depth := d.compiler.body.depth - 1 }) :=
    { hdropped with
      balanced := { hdropped.balanced with }
      depth_eq := by
        show d.compiler.body.depth - 1 = depth
        rw [h.depth_eq]
        rfl }
  have hpopped := (hclosed.emitPops (d.compiler.body.locals.takeWhile
    (Local.isWithin (d.compiler.body.depth - 1 + 1)))).noteScope
  unfold Watched.closeScope Compiler.closeScope
  simp only [List.span_eq_takeWhile_dropWhile]
  exact hpopped

theorem addLocal (h : Reached False w waiting depth d) (name : Token) :
    Reached False w waiting depth (d.map (·.addLocal name)) ∧
      2 ≤ (d.compiler.addLocal name).body.locals.length := by
  unfold Watched.map
  dsimp only
  by_cases hfull : d.compiler.body.locals.length = Compiler.maxLocals
  · have hadded : d.compiler.addLocal name = d.compiler.report .tooManyLocals := if_pos hfull
    rw [hadded]
    refine ⟨h.report .tooManyLocals, ?_⟩
    rw [(Compiler.Grows.report _ _).locals, hfull]
    decide
  · have hadded : d.compiler.addLocal name =
        { d.compiler with body.locals := ⟨name.lexeme, none⟩ :: d.compiler.body.locals } := if_neg hfull
    rw [hadded]
    obtain ⟨hslotted, hlength⟩ := h.balanced.slotted.push hfull ⟨name.lexeme, none⟩
    exact ⟨h.setLocals hslotted, hlength⟩

/-- A name that was declared in a scope is the innermost local, or there is no room for more locals. -/
theorem declareName (h : Reached False w waiting depth d) (what : Diagnostic.Expectation) :
    Reached False w waiting depth (d.declareName what).2 ∧ (d.declareName what).2.compiler.body.Named := by
  have hexpected := h.expect .identifier what
  have hdeclared : Reached False w waiting depth ((d.expect .identifier what).map Compiler.declare) ∧
      ((d.expect .identifier what).map Compiler.declare).compiler.body.Named := by
    generalize d.expect .identifier what = e at hexpected
    rw [compiler_map]
    unfold Watched.map Compiler.declare
    by_cases hglobal : e.compiler.body.depth = 0
    · rw [if_pos hglobal]
      exact ⟨hexpected, fun hpos => absurd hglobal (Nat.ne_of_gt hpos)⟩
    · rw [if_neg hglobal]
      dsimp only
      split
      · obtain ⟨hadded, hlength⟩ :=
          (hexpected.report (.duplicate e.compiler.previous.lexeme)).addLocal e.compiler.previous
        exact ⟨hadded, fun _ => hlength⟩
      · obtain ⟨hadded, hlength⟩ := hexpected.addLocal e.compiler.previous
        exact ⟨hadded, fun _ => hlength⟩
  obtain ⟨hreached, hnamed⟩ := hdeclared
  unfold Watched.declareName Compiler.declareName
  dsimp only
  split
  · exact ⟨hreached.noteScope, hnamed⟩
  · rename_i hglobal
    have hconstant := Compiler.Grows.nameConstant (d.compiler.expect .identifier what).declare
      (d.compiler.expect .identifier what).declare.previous
    refine ⟨(hreached.grow hconstant).noteScope, fun hpos => absurd ?_ hglobal⟩
    rw [← hconstant.depth]
    exact hpos

theorem completeLocal (h : Reached False w waiting depth d) (hnamed : d.compiler.body.Named) :
    Reached False w waiting depth d.completeLocal ∧ d.completeLocal.compiler.body.Named := by
  unfold Watched.completeLocal
  rw [compiler_noteScope, compiler_map]
  unfold Watched.map Compiler.completeLocal
  by_cases hglobal : d.compiler.body.depth = 0
  · rw [if_pos hglobal]
    exact ⟨h.noteScope, hnamed⟩
  · rw [if_neg hglobal]
    obtain ⟨hbottom, hroom⟩ := h.balanced.slotted
    have htwo := hnamed (Nat.pos_of_ne_zero hglobal)
    cases hlocals : d.compiler.body.locals with
    | nil =>
      rw [hlocals] at htwo
      cases htwo
    | cons loc locals =>
      rw [hlocals] at hbottom hroom htwo
      have hcompleted : Reached False w waiting depth (d.map fun c => { c with
          body.locals := { loc with depth := some d.compiler.body.depth } :: locals }) := by
        refine h.setLocals ⟨?_, hroom⟩
        show ({ loc with depth := some d.compiler.body.depth } :: locals).getLast? = _
        cases locals with
        | nil => exact absurd htwo (by simp)
        | cons next locals => exact hbottom
      exact ⟨hcompleted.noteScope, fun _ => htwo⟩

theorem define (h : Reached False w waiting depth d) (hnamed : d.compiler.body.Named) (global : UInt8) :
    Reached False w waiting depth (d.define global) := by
  unfold Watched.define Watched.map Compiler.define
  dsimp only
  by_cases hlocal : 0 < d.compiler.body.depth
  · rw [if_pos hlocal]
    exact (h.completeLocal hnamed).1
  · rw [if_neg hlocal]
    exact (h.emit _).noteScope

end Reached

/-- What leaves the locals as they are leaves the innermost one that was named. -/
theorem Keeps.named {f : Watched → Watched} (hf : Keeps True f) {w : Watched} (h : w.Balanced)
    (hnamed : w.compiler.body.Named) : (f w).compiler.body.Named := by
  have hkept := hf w h
  unfold Body.Named
  rw [hkept.depth_eq, hkept.locals trivial]
  exact hnamed

/-- A count that has not reached its maximum can go up. -/
theorem toNat_succ_lt {count : UInt8} (h : count ≠ 255) : count.toNat + 1 < UInt8.size := by
  have hlt : count.toNat < 256 := count.toNat_lt
  have hne : count.toNat ≠ 255 := fun heq => h (UInt8.toNat_inj.mp heq)
  have hsize : UInt8.size = 256 := rfl
  omega

/-! ### Expressions -/

section

variable {parse : Level → Watched → Watched} (hparse : ∀ level, Keeps True (parse level))

include hparse

theorem keeps_mention (assignable : Bool) : Keeps True (mention parse assignable) := by
  intro w h
  have hrest : ∀ (c : Compiler) (read write : Instruction), w.compiler.Grows c →
      Reached True w w.waiting w.compiler.body.depth
        (if assignable && c.sees .equal then (parse .assignment { w with compiler := c }.accept).emit write
        else { w with compiler := c }.emit read) := by
    intro c read write hc
    have hmoved := (h.reached True).grow hc
    split
    · exact (hmoved.accept.andThen (hparse _)).emit _
    · exact hmoved.emit _
  have hresolved := Compiler.Grows.resolve w.compiler w.compiler.previous
  unfold mention
  dsimp only
  split <;> rename_i heq <;> rw [heq] at hresolved
  · exact hrest _ _ _ hresolved
  · exact hrest _ _ _ (hresolved.trans (.nameConstant _ _))

theorem keeps_operand (assignable : Bool) : Keeps True (operand parse assignable) := by
  intro w h
  have hstart := h.reached True
  unfold operand
  split
  · exact (hstart.andThen (hparse _)).expect _ _
  · exact (hstart.andThen (hparse _)).emit _
  · exact (hstart.andThen (hparse _)).emit _
  · exact keeps_mention hparse assignable w h
  · exact hstart.grow (.emitConstant _ _)
  · exact hstart.grow (.emitConstant _ _)
  · exact hstart.emit _
  · exact hstart.emit _
  · exact hstart.emit _
  · exact hstart

/-- The count of arguments goes up only below its maximum; beyond it, every further argument is reported. -/
theorem keeps_arguments (count : UInt8) (fuel : Nat) : Keeps True fun w =>
    (arguments parse count w fuel).2 := by
  intro w h
  induction fuel generalizing count w with
  | zero => exact (h.reached True).note .exhausted trivial trivial
  | succ fuel ih =>
    have hparsed := (h.reached True).andThen (hparse .assignment)
    have hrest : ∀ (count : UInt8) (d : Watched), Reached True w w.waiting w.compiler.body.depth d →
        Reached True w w.waiting w.compiler.body.depth
          (if d.compiler.sees .comma then
            arguments parse count (d.accept.note (.round w.compiler d.accept.compiler)) fuel
          else (count, d)).2 := by
      intro count d hd
      split
      · exact (hd.accept.note (.round _ _) trivial trivial).andThen
          (f := fun w => (arguments parse count w fuel).2)
          fun w h => ih count w h
      · exact hd
    unfold arguments
    dsimp only
    split
    · exact hrest _ _ (hparsed.report _)
    · rename_i hcount
      exact hrest _ _ (hparsed.note (.counting count) (toNat_succ_lt hcount) trivial)

theorem keeps_callOperator (fuel : Nat) : Keeps True (callOperator parse fuel) := by
  intro w h
  unfold callOperator
  by_cases hclose : w.compiler.sees .rightParen = true
  · rw [if_pos hclose]
    exact ((h.reached True).expect _ _).emit _
  · rw [if_neg hclose]
    exact ((keeps_arguments hparse 0 fuel w h).expect _ _).emit _

theorem keeps_operator (fuel : Nat) : Keeps True (operator parse fuel) := by
  intro w h
  have hskip := (h.reached True).openJump .jumpIfFalse rfl
  unfold operator
  split
  · exact keeps_callOperator hparse fuel w h
  · exact ((hskip.emit .pop).andThen (hparse .and)).closeFirst
  · -- the jump to the right side is filled in while the later one to the end is waiting
    have hright := ((hskip.openJump .jump rfl).closeSecond).emit .pop
    exact (hright.andThen (hparse .or)).closeFirst
  · exact ((h.reached True).andThen (hparse _)).emitAll _

theorem keeps_operators (level : Level) (fuel : Nat) : Keeps True fun w => operators parse level w fuel := by
  intro w h
  induction fuel generalizing w with
  | zero => exact (h.reached True).note .exhausted trivial trivial
  | succ fuel ih =>
    dsimp only [operators]
    split
    · have hround := ((h.reached True).accept.andThen (keeps_operator hparse fuel)).note
        (.round w.compiler (operator parse fuel w.accept).compiler) trivial trivial
      exact hround.andThen (f := fun w => operators parse level w fuel) ih
    · exact h.reached True

end

theorem keeps_expression (fuel depth : Nat) (level : Level) : Keeps True (expression fuel depth level) := by
  induction fuel generalizing depth level with
  | zero => exact fun w h => (h.reached True).note .exhausted trivial trivial
  | succ fuel ih =>
    intro w h
    have hparse := ih (depth + 1)
    have hentered := ((h.reached True).note (.entered depth) trivial trivial).accept
    unfold expression
    refine Reached.note ?_ (.passed _ _) trivial trivial
    dsimp only
    split
    · have hread := (hentered.andThen (keeps_operand hparse (level.rank ≤ Level.assignment.rank))).andThen
        (keeps_operators hparse level fuel)
      split
      · exact hread.accept.report _
      · exact hread
    · exact hentered.report _

/-! ### Statements -/

section

variable {expr stmt decl : Watched → Watched}

theorem keeps_printStatement (hexpr : Keeps True expr) : Keeps False (printStatement expr) :=
  fun _ h => (((h.reached False).andThen hexpr.any).expect _ _).emit _

theorem keeps_expressionStatement (hexpr : Keeps True expr) : Keeps False (expressionStatement expr) :=
  fun _ h => (((h.reached False).andThen hexpr.any).expect _ _).emit _

theorem keeps_returnStatement (hexpr : Keeps True expr) : Keeps False (returnStatement expr) := by
  intro w h
  have hrest : ∀ d : Watched, Reached False w w.waiting w.compiler.body.depth d →
      Reached False w w.waiting w.compiler.body.depth (if d.compiler.sees .semicolon then
        d.accept.map Compiler.emitBareReturn else ((expr d).expect .semicolon .endReturn).emit .ret) := by
    intro d hd
    split
    · exact hd.accept.grow (.emitBareReturn _)
    · exact ((hd.andThen hexpr.any).expect _ _).emit _
  unfold returnStatement
  dsimp only
  split
  · exact hrest _ ((h.reached False).report _)
  · exact hrest _ (h.reached False)

theorem keeps_ifStatement (hexpr : Keeps True expr) (hstmt : Keeps False stmt) :
    Keeps False (ifStatement expr stmt) := by
  intro w h
  have hcondition := (((h.reached False).expect .leftParen .openIf).andThen hexpr.any).expect .rightParen
    .closeCondition
  have hthen := ((hcondition.openJump .jumpIfFalse rfl).emit .pop).andThen hstmt
  have helse := (hthen.openJump .jump rfl).closeSecond.emit .pop
  unfold ifStatement
  dsimp only
  split
  · exact (helse.accept.andThen hstmt).closeFirst
  · exact helse.closeFirst

theorem keeps_whileStatement (hexpr : Keeps True expr) (hstmt : Keeps False stmt) :
    Keeps False (whileStatement expr stmt) := by
  intro w h
  have hcondition := (((h.reached False).expect .leftParen .openWhile).andThen hexpr.any).expect .rightParen
    .closeCondition
  have hbody := ((hcondition.openJump .jumpIfFalse rfl).emit .pop).andThen hstmt
  exact (hbody.emitLoop hbody.grown).closeFirst.emit .pop

theorem keeps_varDeclaration (hexpr : Keeps True expr) : Keeps False (varDeclaration expr) := by
  intro w h
  obtain ⟨hdeclared, hnamed⟩ := (h.reached False).declareName .variableName
  have hvalue : Keeps True fun d =>
      (if d.compiler.sees .equal then expr d.accept else d.emit .nil).expect .semicolon .endVariable := by
    intro d hd
    refine Reached.expect ?_ _ _
    split
    · exact (hd.reached True).accept.andThen hexpr
    · exact (hd.reached True).emit _
  exact (hdeclared.andThen hvalue.any).define (hvalue.named hdeclared.balanced hnamed) _

theorem keeps_forInitializer (hexpr : Keeps True expr) : Keeps False (forInitializer expr) := by
  intro w h
  unfold forInitializer
  split
  · exact (h.reached False).accept
  · split
    · exact (h.reached False).accept.andThen (keeps_varDeclaration hexpr)
    · exact keeps_expressionStatement hexpr w h

namespace Reached

variable {w d : Watched} {waiting : List Nat} {depth : Nat}

/-- The jump out of a loop waits, if there is one. -/
theorem forCondition (hexpr : Keeps True expr) (h : Reached False w waiting depth d) :
    Reached False w ((forCondition expr d).1.toList ++ waiting) depth (forCondition expr d).2 := by
  unfold Watched.forCondition
  split
  · exact h.accept
  · exact (((h.andThen hexpr.any).expect _ _).openJump .jumpIfFalse rfl).emit .pop

theorem forIncrement (hexpr : Keeps True expr) (h : Reached False w waiting depth d) {start : Nat}
    (hstart : start ≤ d.compiler.codeSize) : Reached False w waiting depth (forIncrement expr start d).2 ∧
      (forIncrement expr start d).1 ≤ (forIncrement expr start d).2.compiler.codeSize := by
  have hhere := h.balanced.reached False
  unfold Watched.forIncrement
  split
  · exact ⟨h.accept, Nat.le_trans hstart hhere.accept.grown⟩
  · have hskip := hhere.openJump .jump rfl
    have hincrement := ((hskip.balanced.reached False).andThen hexpr.any).emit .pop |>.expect .rightParen
      .closeClauses
    rw [hskip.waiting_eq] at hincrement
    have hlooped := hincrement.emitLoop (Nat.le_trans hstart (Nat.le_trans hskip.grown hincrement.grown))
    have hclosed := hlooped.closeFirst
    refine ⟨?_, hclosed.grown⟩
    rw [hskip.depth_eq, h.waiting_eq, h.depth_eq] at hclosed
    exact (h.trans hskip).trans hclosed

end Reached

/-- A `for` statement closes the scope that it opens, and in between each jump that it opens. -/
theorem keeps_forStatement (hexpr : Keeps True expr) (hstmt : Keeps False stmt) :
    Keeps False (forStatement expr stmt) := by
  intro w h
  have hfirst := ((h.reached False).openScope.expect .leftParen .openFor).andThen (keeps_forInitializer hexpr)
  unfold forStatement
  dsimp only
  generalize forInitializer expr ((w.map Compiler.openScope).expect .leftParen .openFor) = first at hfirst
  -- the places that the loop goes back to lie behind what its initializer has written
  have hcondition := (hfirst.balanced.reached False).forCondition hexpr
  obtain ⟨hincrement, hagain⟩ := hcondition.forIncrement hexpr hcondition.grown
  have hbody := hstmt _ hincrement.balanced
  have hlooped := (hincrement.andThen hstmt).emitLoop (Nat.le_trans hagain hbody.grown)
  rw [hfirst.waiting_eq, hfirst.depth_eq] at hlooped
  refine (hfirst.trans ?_).closeScope
  split <;> rename_i htoExit <;> rw [htoExit] at hlooped
  · exact hlooped.closeFirst.emit .pop
  · exact hlooped

theorem keeps_block (hdecl : Keeps False decl) (fuel : Nat) : Keeps False fun w => block decl w fuel := by
  intro w h
  induction fuel generalizing w with
  | zero => exact (h.reached False).note .exhausted trivial trivial
  | succ fuel ih =>
    dsimp only [block]
    split
    · exact (h.reached False).expect _ _
    · have hround := ((h.reached False).andThen hdecl).note (.round w.compiler (decl w).compiler)
        trivial trivial
      exact hround.andThen (f := fun w => block decl w fuel) ih

theorem keeps_anyStatement (hexpr : Keeps True expr) (hstmt : Keeps False stmt) (hdecl : Keeps False decl)
    (fuel : Nat) :
    Keeps False (anyStatement expr stmt decl fuel) := by
  intro w h
  have haccepted := (h.reached False).accept
  unfold anyStatement
  split
  · exact haccepted.andThen (keeps_printStatement hexpr)
  · exact haccepted.andThen (keeps_forStatement hexpr hstmt)
  · exact haccepted.andThen (keeps_ifStatement hexpr hstmt)
  · exact haccepted.andThen (keeps_returnStatement hexpr)
  · exact haccepted.andThen (keeps_whileStatement hexpr hstmt)
  · exact (haccepted.openScope.andThen (keeps_block hdecl fuel)).closeScope
  · exact keeps_expressionStatement hexpr w h

/-! ### Declarations -/

/-- The count of parameters goes up only below its maximum; beyond it, every further parameter is reported. -/
theorem keeps_parameters (fuel : Nat) : Keeps False fun w => w.parameters fuel := by
  intro w h
  induction fuel generalizing w with
  | zero => exact (h.reached False).note .exhausted trivial trivial
  | succ fuel ih =>
    have hrest : ∀ d : Watched, Reached False w w.waiting w.compiler.body.depth d →
        Reached False w w.waiting w.compiler.body.depth
          (let e := (d.declareName .parameterName).2.define (d.declareName .parameterName).1
          if e.compiler.sees .comma then parameters (e.accept.note (.round w.compiler e.accept.compiler)) fuel
              else e) := by
      intro d hd
      obtain ⟨hdeclared, hnamed⟩ := hd.declareName .parameterName
      have hdefined := hdeclared.define hnamed (d.declareName .parameterName).1
      dsimp only
      split
      · exact (hdefined.accept.note (.round _ _) trivial trivial).andThen (f := fun w => w.parameters fuel) ih
      · exact hdefined
    dsimp only [parameters]
    split
    · exact hrest _ ((h.reached False).grow (.reportAt _ _ _))
    · rename_i harity
      have hcounting := (h.reached False).note (.counting w.compiler.body.function.arity)
        (toNat_succ_lt harity) trivial
      exact hrest _ (hcounting.grow ⟨⟨#[], Array.append_empty.symm⟩, rfl, rfl, id, id⟩)

/-- No jump is waiting when the body of a function begins. -/
theorem Balanced.enter {w : Watched} (h : w.Balanced) (name : String) : (w.enter name).Balanced where
  holds := fun _ hplace => absurd hplace List.not_mem_nil
  apart := List.Pairwise.nil
  slotted := Body.slotted_start false (some name)
  panicking := h.panicking
  filled := h.filled.imp_right fun hall => ⟨rfl, List.forall_mem_cons.mpr ⟨trivial, hall.2⟩⟩
  notes := List.forall_mem_cons.mpr ⟨Body.slotted_start false (some name), h.notes⟩

/-- The function around one that was compiled is as it was, apart from the push of the compiled one. -/
theorem Balanced.leave {outer w : Watched} (houter : outer.Balanced) (h : w.Balanced)
    (hwaiting : w.waiting = []) (hfailed : outer.compiler.Failed → w.compiler.Failed) :
    Reached True outer outer.waiting outer.compiler.body.depth (outer.leave w) := by
  have hfinished := Compiler.Grows.finish w.compiler
  have hback : outer.compiler.Grows { w.compiler.finish.2 with body := outer.compiler.body } :=
    .of_body rfl (hfinished.failed ∘ hfailed) fun _ => hfinished.panicking h.panicking
  have hpush := Compiler.Grows.emitConstant { w.compiler.finish.2 with body := outer.compiler.body }
    (.function w.compiler.finish.1)
  have hended : w.compiler.Failed → (outer.leave w).compiler.Failed := hpush.failed ∘ hfinished.failed
  have hgrows := hback.trans hpush
  have hreached := (houter.reached True).grow hgrows
  refine { hreached with balanced := { hreached.balanced with filled := ?_, notes := ?_ } }
  · rcases h.filled with hfail | ⟨hstranded, hnotes⟩
    · exact Or.inl (hended hfail)
    · exact houter.filled.imp (hended ∘ hfailed) fun hall =>
        ⟨hall.1, List.forall_mem_cons.mpr ⟨hstranded, hnotes⟩⟩
  · exact List.forall_mem_cons.mpr ⟨hwaiting, h.notes⟩

theorem keeps_functionBody (hdecl : Keeps False decl) (fuel : Nat) (name : String) :
    Keeps True (functionBody decl fuel name) := by
  intro outer h
  have hentered := ((h.enter name).reached False).expect .leftParen .openParameters
  have hbody : ∀ d : Watched, Reached False (outer.enter name) [] 1 d →
      Reached True outer outer.waiting outer.compiler.body.depth
        (outer.leave (block decl ((d.expect .rightParen .closeParameters).expect .leftBrace .openBody)
          fuel)) := by
    intro d hd
    have hblock := ((hd.expect .rightParen .closeParameters).expect .leftBrace .openBody).andThen
      (keeps_block hdecl fuel)
    exact h.leave hblock.balanced hblock.waiting_eq hblock.failed
  unfold functionBody
  dsimp only
  split
  · exact hbody _ hentered
  · exact hbody _ (hentered.andThen (keeps_parameters fuel))

theorem keeps_funDeclaration (hdecl : Keeps False decl) (fuel : Nat) :
    Keeps False (funDeclaration decl fuel) := by
  intro w h
  obtain ⟨hdeclared, hdeclaredNamed⟩ := (h.reached False).declareName .functionName
  obtain ⟨hcompleted, hnamed⟩ := hdeclared.completeLocal hdeclaredNamed
  have hbody := keeps_functionBody hdecl fuel
  exact (hcompleted.andThen (hbody _).any).define ((hbody _).named hcompleted.balanced hnamed) _

theorem keeps_skipStatement (fuel : Nat) : Keeps True fun w => w.skipStatement fuel := by
  intro w h
  induction fuel generalizing w with
  | zero => exact (h.reached True).note .exhausted trivial trivial
  | succ fuel ih =>
    dsimp only [skipStatement]
    split
    · exact h.reached True
    · have hround := (h.reached True).accept.note (.round w.compiler w.accept.compiler) trivial trivial
      exact hround.andThen (f := fun w => w.skipStatement fuel) ih

theorem keeps_recover (fuel : Nat) : Keeps True fun w => w.recover fuel := by
  intro w h
  dsimp only [recover]
  split
  · have hcalm : w.compiler.Grows { w.compiler with panicking := false } :=
      .of_body rfl id fun _ hpanic => by cases hpanic
    exact ((h.reached True).grow hcalm).andThen (keeps_skipStatement fuel)
  · exact h.reached True

theorem keeps_anyDeclaration (hexpr : Keeps True expr) (hstmt : Keeps False stmt) (hdecl : Keeps False decl)
    (fuel : Nat) :
    Keeps False (anyDeclaration expr stmt decl fuel) := by
  intro w h
  have haccepted := (h.reached False).accept
  unfold anyDeclaration
  refine Reached.andThen (f := fun w => w.recover fuel) ?_ (keeps_recover fuel).any
  split
  · exact haccepted.andThen (keeps_funDeclaration hdecl fuel)
  · exact haccepted.andThen (keeps_varDeclaration hexpr)
  · exact hstmt w h

end

theorem keeps_statement_declaration (fuel depth : Nat) :
    Keeps False (statement fuel depth) ∧ Keeps False (declaration fuel depth) := by
  induction fuel generalizing depth with
  | zero =>
    have hnoted : Keeps False (·.note .exhausted) :=
      fun w h => (h.reached False).note .exhausted trivial trivial
    exact ⟨hnoted, hnoted⟩
  | succ fuel ih =>
    obtain ⟨hstmt, hdecl⟩ := ih (depth + 1)
    have hexpr := keeps_expression fuel (depth + 1) .assignment
    constructor
    · intro w h
      have hentered := (h.reached False).note (.entered depth) trivial trivial
      rw [statement]
      exact (hentered.andThen (keeps_anyStatement hexpr hstmt hdecl fuel)).note (.passed _ _) trivial trivial
    · intro w h
      have hentered := (h.reached False).note (.entered depth) trivial trivial
      rw [declaration]
      exact (hentered.andThen (keeps_anyDeclaration hexpr hstmt hdecl fuel)).note (.passed _ _) trivial trivial

theorem keeps_program (fuel count : Nat) : Keeps False fun w => program fuel w count := by
  intro w h
  induction count generalizing w with
  | zero => exact (h.reached False).note .exhausted trivial trivial
  | succ count ih =>
    dsimp only [program]
    split
    · exact (h.reached False).accept
    · have hround := ((h.reached False).andThen (keeps_statement_declaration fuel 1).2).note
        (.round w.compiler (declaration fuel 1 w).compiler) trivial trivial
      exact hround.andThen (f := fun w => program fuel w count) ih

/-- The compilation of any tokens is in good order when it is over, and then no jump is waiting. -/
theorem balanced_watch (tokens : List Token) : (watch tokens).Balanced := by
  have hbegun : Balanced { compiler := Compiler.start tokens } :=
    { holds := fun _ hplace => absurd hplace List.not_mem_nil
      apart := .nil
      slotted := Body.slotted_start true none
      panicking := fun hpanic => by cases hpanic
      filled := Or.inr ⟨rfl, fun _ hnote => absurd hnote List.not_mem_nil⟩
      notes := fun _ hnote => absurd hnote List.not_mem_nil }
  have hended := (hbegun.reached False).accept.noteScope.andThen
    (keeps_program (2 * tokens.length + 4) (2 * tokens.length + 4))
  have hbalanced := hended.balanced
  have hwaiting := hended.waiting_eq
  refine { hbalanced with filled := ?_, notes := List.forall_mem_cons.mpr ⟨hwaiting, hbalanced.notes⟩ }
  exact hbalanced.filled.imp_right fun hall => ⟨hall.1, List.forall_mem_cons.mpr ⟨hall.1, hall.2⟩⟩

/-- If a text compiles, no diagnostic was left. -/
theorem not_failed_of_compile {source : String} {script : Function} (h : compile source = .ok script) :
    ¬(watch (Token.scan source)).compiler.Failed := by
  have hresult : (compileTokens (Token.scan source)).result = .ok script := h
  rw [compileTokens_eq] at hresult
  dsimp only at hresult
  intro hfailed
  split at hresult
  · rename_i hnone
    exact (Compiler.Grows.finish _).failed hfailed (Array.isEmpty_iff.mp hnone)
  · cases hresult

/-- The compiler keeps its books in order on every text with fewer line breaks than lines can be counted,
    valid or not. Its tokens come in the order of their lines, of which there is at most one more than line
    breaks. The compilation that is watched gives what the compilation gives, and what it notes is sound: a
    jump is filled in only in the code of the function it was written in, where its placeholder still stands,
    and then waits no longer; a loop goes back to a place in the code; a scope is closed only where one is
    open; the slot of the function that is called stays below the other locals, of which there are no more
    than an operand can tell apart; and the counts of arguments and parameters do not wrap. If the text
    compiles, no jump of any of its functions was left with its placeholder. -/
theorem compilation_balanced (source : String) (hlines : source.toList.count '\n' < UInt32.size - 1) :
    ((Token.scan source).Pairwise (·.line ≤ ·.line) ∧
      ∀ token ∈ Token.scan source, 1 ≤ token.line.toNat ∧ token.line.toNat ≤ 1 + source.toList.count '\n') ∧
    compileTokens (Token.scan source) =
      { finished := (watch (Token.scan source)).compiler.finish.2.finished.toList
        result :=
          if (watch (Token.scan source)).compiler.finish.2.diagnostics.isEmpty then
            .ok (watch (Token.scan source)).compiler.finish.1
          else .error (watch (Token.scan source)).compiler.finish.2.diagnostics.toList } ∧
    (∀ note ∈ (watch (Token.scan source)).notes, note.Sound) ∧
    ∀ script, compile source = .ok script → ∀ note ∈ (watch (Token.scan source)).notes, note.Filled := by
  have hbalanced := balanced_watch (Token.scan source)
  exact ⟨Token.lines_scan hlines, compileTokens_eq _, hbalanced.notes,
    fun script hscript => (hbalanced.filled.resolve_left (not_failed_of_compile hscript)).2⟩

/-- A loop whose condition skips a part of itself, in a function. -/
theorem compilation_balanced_loop : ∃ script,
    compile "fun f(a) \x7b\nfor (var i = 0; a and i < 2; i = i + 1) if (f(i)) print i;\n\x7d" = .ok script ∧
    ∀ note ∈
      (watch
        (Token.scan "fun f(a) \x7b\nfor (var i = 0; a and i < 2; i = i + 1) if (f(i)) print i;\n\x7d")).notes,
      note.Sound ∧ note.Filled := by
  have hok :
      (compile "fun f(a) \x7b\nfor (var i = 0; a and i < 2; i = i + 1) if (f(i)) print i;\n\x7d").isOk =
        true := by
    decide +kernel
  obtain ⟨-, -, hsound, hfilled⟩ := compilation_balanced
    "fun f(a) \x7b\nfor (var i = 0; a and i < 2; i = i + 1) if (f(i)) print i;\n\x7d" (by decide +kernel)
  cases hscript : compile "fun f(a) \x7b\nfor (var i = 0; a and i < 2; i = i + 1) if (f(i)) print i;\n\x7d" with
  | ok script => exact ⟨script, rfl, fun note hnote => ⟨hsound note hnote, hfilled script hscript note hnote⟩⟩
  | error diagnostics =>
    rw [hscript] at hok
    cases hok

end Watched

end Lox
