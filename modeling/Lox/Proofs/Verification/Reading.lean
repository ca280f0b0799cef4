import Lox.Proofs.Machine.Places
import Lox.Proofs.Machine.Wording
import Lox.Proofs.Verification

/-! # Reading verified code

A machine that runs functions which the verifier accepts reads every instruction where the verifier has read
one, and can misread only by going to the end of the code. Only a jump can lead there: functions whose jumps
stay inside their code are never misread. -/

namespace Lox

/-! ### Wording -/

namespace Fault

variable {fault : Fault}

theorem eq_pastEnd_of_message (h : fault.message = Fault.pastEnd.message) :
    fault = .pastEnd ∨ ∃ complaint, fault = .native complaint := by
  have hopening : fault.opening = Fault.pastEnd.opening := by rw [← take_message, ← take_message, h]
  cases fault with
  | pastEnd => exact Or.inl rfl
  | native complaint => exact Or.inr ⟨complaint, rfl⟩
  | _ => simp [opening] at hopening

/-- A fault that is worded as a misreading is one, or a complaint of the host. -/
theorem isMisreading_of_message {misreading : Fault} (hmisreading : misreading.IsMisreading)
    (h : fault.message = misreading.message) : fault.IsMisreading ∨ ∃ complaint, fault = .native complaint := by
  rcases isCorruption_of_message hmisreading.isCorruption h with hcorruption | hnative
  · have hopening : fault.opening = misreading.opening := by rw [← take_message, ← take_message, h]
    refine Or.inl ?_
    cases fault with
    | stackUnderflow | noFrame | localRange =>
      cases misreading with
      | pastEnd | unknownOpcode | constantRange | nameExpected | loopBeforeStart => simp [opening] at hopening
      | _ => exact absurd hmisreading id
    | pastEnd | unknownOpcode | constantRange | nameExpected | loopBeforeStart => trivial
    | _ => exact absurd hcorruption id
  · exact Or.inr hnative

end Fault

/-! ### Places -/

/-- The verifier reads an instruction of the chunk at this place. -/
def Chunk.IsStart (chunk : Chunk) (place : Nat) : Prop :=
  ∃ found, chunk.instructions = .ok found ∧ ∃ i, (place, i) ∈ found

/-- No jump of the chunk leads to the end of the code. -/
def Chunk.JumpsInside (chunk : Chunk) : Prop :=
  ∀ found, chunk.instructions = .ok found → ∀ entry ∈ found, entry.2.target? entry.1 ≠ some chunk.size

namespace Function

/-- No jump of the function, or of a function inside, leads to the end of its code. -/
def JumpsInside (f : Function) : Prop := ∀ g ∈ f.all, g.chunk.JumpsInside

theorem JumpsInside.constant {f g : Function} (h : f.JumpsInside) (hg : .function g ∈ f.chunk.constants) :
    g.JumpsInside :=
  fun k hk => h k (mem_all.mpr (Or.inr ⟨g, hg, hk⟩))

variable {f : Function} {offset : Nat}

theorem Verified.isStart_zero (h : f.Verified) : f.chunk.IsStart 0 := by
  obtain ⟨found, hfound, hsound⟩ := Chunk.verify_eq_ok.mp h.chunk
  obtain ⟨before, last, hitems⟩ := hsound.last
  have hfills := hsound.fills
  cases hlist : found.toList with
  | nil =>
    rw [hlist] at hitems
    cases before <;> cases hitems
  | cons entry items =>
    rw [hlist] at hfills
    obtain ⟨hentry, -⟩ := hfills
    refine ⟨found, hfound, entry.2, Array.mem_def.mpr ?_⟩
    rw [hlist, ← hentry]
    exact List.mem_cons_self

/-- At a start stands an instruction that leads to starts, or jumps to the end of the code. -/
theorem Verified.stays (h : f.Verified) {places : Nat → Prop} (hoffset : f.chunk.IsStart offset)
    (hstart : ∀ place, f.chunk.IsStart place → places place)
    (hend : ¬f.chunk.JumpsInside → places f.chunk.size) :
    ∃ i : Instruction, Instruction.read f.chunk.code offset = .instruction i ∧
      i.Stays f.chunk places offset := by
  obtain ⟨found, hfound, hsound⟩ := Chunk.verify_eq_ok.mp h.chunk
  obtain ⟨found', hfound', i, hi⟩ := hoffset
  cases hfound.symm.trans hfound'
  have hmem := Array.mem_def.mp hi
  obtain ⟨hread, hflaw⟩ := hsound.fills.mem hmem
  refine ⟨i, hread, hflaw, fun distance heq => ?_, fun place hplace => ?_⟩
  · subst heq
    obtain ⟨target, htarget, -⟩ := hsound.lands offset _ hmem (Option.some_ne_none _)
    by_contra hlt
    rw [Instruction.target?, if_neg hlt] at htarget
    cases htarget
  · rcases hsound.leads hmem hplace with ⟨j, hj⟩ | ⟨rfl, htarget⟩
    · exact hstart place ⟨found, hfound, j, Array.mem_def.mpr hj⟩
    · exact hend fun hinside => hinside found hfound (offset, i) hi htarget

/-- Verified functions, with the starts of their instructions and the end of their code. -/
theorem closed_verified : Closed Verified fun f place => f.chunk.IsStart place ∨ place = f.chunk.size where
  entry h := Or.inl h.isStart_zero
  constant h hg := h.constant hg
  inside := by
    rintro f offset h (hstart | hend)
    · exact Or.inr (h.stays hstart (fun _ => Or.inl) fun _ => Or.inr rfl)
    · exact Or.inl hend

/-- Verified functions whose jumps stay inside, with the starts of their instructions. -/
theorem closed_inside : Closed (fun f => f.Verified ∧ f.JumpsInside) fun f place => f.chunk.IsStart place where
  entry h := h.1.isStart_zero
  constant h hg := ⟨h.1.constant hg, h.2.constant hg⟩
  inside h hstart := Or.inr (h.1.stays hstart (fun _ => id) fun houtside =>
    absurd (h.2 _ (mem_all_self _)) houtside)

theorem Verified.not_isStart_size (h : f.Verified) : ¬f.chunk.IsStart f.chunk.size := by
  obtain ⟨found, hfound, hsound⟩ := Chunk.verify_eq_ok.mp h.chunk
  rintro ⟨found', hfound', i, hi⟩
  cases hfound.symm.trans hfound'
  have hwithin := Instruction.read_within (hsound.fills.mem (Array.mem_def.mp hi)).1
  have hpos := i.size_pos
  have hsize : f.chunk.size = f.chunk.code.size := rfl
  omega

end Function

/-! ### Runs -/

namespace Machine

variable {host : Host} {hosts : Hosts} {m : Machine} {f : Function}

/-- Verified code is read as it was verified: whenever a run of it is about to read, it stands where
    the verifier has read an instruction or at the end of the code. It never ends as if it had
    misread an instruction, unless a routine of the host complains in these words, or it has read at
    the end of the code. -/
theorem verified_reads (hhosts : hosts.Faithful) (hglobals : m.globals.In Function.Verified)
    (hf : f.verify = .ok ()) :
    (∀ m₁, Reaches hosts m f m₁ → ∃ frame callers, m₁.frames = frame :: callers ∧
      (frame.function.chunk.IsStart frame.ip ∨ frame.ip = frame.function.chunk.size) ∧
      ∀ m₂ fault, step hosts m₁ = .fault m₂ fault → fault.IsMisreading →
        fault = .pastEnd ∧ frame.ip = frame.function.chunk.size) ∧
    ∀ fuel outcome error, m.run hosts fuel f = some outcome → outcome.result = .error error →
      ∀ misreading : Fault, misreading.IsMisreading → error.fault.message = misreading.message →
        (∃ complaint, error.fault = .native complaint) ∨
        (misreading = .pastEnd ∧ error.fault = .pastEnd ∧ ∃ m₁ m₂ frame callers, Reaches hosts m f m₁ ∧
          step hosts m₁ = .fault m₂ .pastEnd ∧ m₁.frames = frame :: callers ∧
          frame.ip = frame.function.chunk.size) := by
  have hkeeps := hhosts.keeps Function.Verified
  constructor
  · intro m₁ hreached
    have hplaced := hreached.placed Function.closed_verified hkeeps hglobals hf
    obtain ⟨frame, callers, hframes⟩ := List.exists_cons_of_ne_nil hplaced.running
    have hframe := (hplaced.frames frame (by rw [hframes]; exact List.mem_cons_self)).2
    refine ⟨frame, callers, hframes, hframe, fun m₂ fault hstep hmisreading => ?_⟩
    have hends := hplaced.step Function.closed_verified hkeeps
    rw [hstep] at hends
    obtain ⟨hpast, frame', callers', hframes', -, hend⟩ := hends hmisreading
    cases hframes.symm.trans hframes'
    exact ⟨hpast, hend⟩
  · intro fuel outcome error hrun herror misreading hmisreading hmessage
    rcases Fault.isMisreading_of_message hmisreading hmessage with hfault | hnative
    · obtain ⟨hpast, m₁, m₂, hreached, hstep, frame, callers, hframes, -, hend⟩ :=
        run_placed Function.closed_verified hkeeps hglobals hf hrun herror hfault
      rw [hpast] at hmessage
      rcases Fault.eq_pastEnd_of_message hmessage.symm with hpast' | ⟨complaint, rfl⟩
      · exact Or.inr ⟨hpast', hpast, m₁, m₂, frame, callers, hreached, hstep, hframes, hend⟩
      · exact absurd hmisreading id
    · exact Or.inl hnative

/-- A script that the verifier accepts: its jump leads over the return to the end of the code. -/
def leaping : Function :=
  { arity := 0
    chunk := { code := #[0x14, 0x00, 0x01, 0x18], lines := #[1, 1, 1, 1], constants := [] }
    name := none }

theorem run_leaping : ∃ outcome error, (Machine.new {} {}).run (Host.standard 0) 2 leaping = some outcome ∧
    outcome.result = .error error ∧ error.fault = .pastEnd := by
  have hruns : (match (Machine.new {} {}).run (Host.standard 0) 2 leaping with
      | some outcome => match outcome.result with
        | .error error => decide (error.fault = .pastEnd)
        | .ok _ => false
      | none => false) = true := by decide +kernel
  split at hruns
  · rename_i outcome hrun
    split at hruns
    · rename_i error herror
      exact ⟨outcome, error, hrun, herror, of_decide_eq_true hruns⟩
    · cases hruns
  · cases hruns

/-- The leaping script is read at its end, which is no start of an instruction. -/
theorem verified_reads_leaping : leaping.verify = .ok () ∧ ∃ outcome error m₁ m₂ frame callers,
    (Machine.new {} {}).run (Host.standard 0) 2 leaping = some outcome ∧ outcome.result = .error error ∧
    Reaches (Host.standard 0) (Machine.new {} {}) leaping m₁ ∧ step (Host.standard 0) m₁ = .fault m₂ .pastEnd ∧
    m₁.frames = frame :: callers ∧ frame.ip = frame.function.chunk.size := by
  have hverify : leaping.verify = .ok () := by decide +kernel
  obtain ⟨outcome, error, hrun, herror, hpast⟩ := run_leaping
  have hreads := verified_reads (Host.faithful_standard 0).always (globals_new _ {} {}) hverify
  rcases hreads.2 2 outcome error hrun herror .pastEnd trivial (by rw [hpast]) with ⟨complaint, hnative⟩ | h
  · rw [hpast] at hnative
    cases hnative
  · obtain ⟨-, -, m₁, m₂, frame, callers, h⟩ := h
    exact ⟨hverify, outcome, error, m₁, m₂, frame, callers, hrun, herror, h⟩

/-- Verified code can be read past its end. -/
theorem leaping_reads_past_end : leaping.verify = .ok () ∧ (Machine.new {} {}).globals.In Function.Verified ∧
    ∃ outcome error, (Machine.new {} {}).run (Host.standard 0) 2 leaping = some outcome ∧
      outcome.result = .error error ∧ error.fault = .pastEnd :=
  ⟨by decide +kernel, globals_new _ _ _, run_leaping⟩

/-- Verified code whose jumps stay inside is never read past its end: no run of it ends as if it were, unless
    a routine of the host complains in these words. -/
theorem inside_never_past_end (hhosts : hosts.Faithful)
    (hglobals : m.globals.In fun g => g.Verified ∧ g.JumpsInside) (hf : f.verify = .ok ())
    (hinside : f.JumpsInside)
    {fuel : Nat} {outcome : Outcome} {error : RuntimeError} (hrun : m.run hosts fuel f = some outcome)
    (herror : outcome.result = .error error) : error.fault ≠ .pastEnd ∧
      (error.fault.message = Fault.pastEnd.message → ∃ complaint, error.fault = .native complaint) := by
  have hnever : error.fault ≠ .pastEnd := by
    intro hpast
    obtain ⟨-, m₁, m₂, hreached, -, frame, callers, hframes, hstart, hend⟩ := run_placed Function.closed_inside
      (hhosts.keeps _) hglobals ⟨hf, hinside⟩ hrun herror (by rw [hpast]; trivial)
    have hplaced := hreached.placed Function.closed_inside (hhosts.keeps _) hglobals ⟨hf, hinside⟩
    have hverified := (hplaced.frames frame (by rw [hframes]; exact List.mem_cons_self)).1.1
    exact hverified.not_isStart_size (hend ▸ hstart)
  exact ⟨hnever, fun hmessage => (Fault.eq_pastEnd_of_message hmessage).resolve_left hnever⟩

/-- A script that jumps to an instruction which fails. -/
def stumbling : Function :=
  { arity := 0
    chunk := { code := #[0x01, 0x14, 0x00, 0x00, 0x12, 0x18], lines := #[1, 1, 1, 1, 1, 1], constants := [] }
    name := none }

/-- The stumbling script fails, but not at the end of its code. -/
theorem inside_never_past_end_stumbling : stumbling.verify = .ok () ∧ stumbling.JumpsInside ∧ ∃ outcome error,
    (Machine.new {} {}).run (Host.standard 0) 4 stumbling = some outcome ∧ outcome.result = .error error ∧
    error.fault ≠ .pastEnd := by
  have hverify : stumbling.verify = .ok () := by decide +kernel
  have hinside : stumbling.JumpsInside := by
    intro g hg found hfound
    cases List.mem_singleton.mp hg
    cases hfound
    decide +kernel
  have hruns : (match (Machine.new {} {}).run (Host.standard 0) 4 stumbling with
      | some outcome => match outcome.result with
        | .error _ => true
        | .ok _ => false
      | none => false) = true := by decide +kernel
  split at hruns
  · rename_i outcome hrun
    split at hruns
    · rename_i error herror
      have hnever := inside_never_past_end (Host.faithful_standard 0).always (globals_new _ {} {}) hverify
        hinside hrun herror
      exact ⟨hverify, hinside, outcome, error, hrun, herror, hnever.1⟩
    · cases hruns
  · cases hruns

end Machine

end Lox
