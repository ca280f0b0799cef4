import Lox.Proofs.Machine.Calls
import Lox.Proofs.Machine.Limits
import Lox.Proofs.Verification.Lines

/-! # Traces

A run can be noted: for each active call, where it has read its last instruction. In a run of compiled code
every call stands where that instruction leads, and one that waits for another has read the instruction that
calls it. As the bytes of an instruction have one line, a trace shows the lines of these instructions. Only
where the limit of steps ends the run nothing has been read since the call got to where it stands, and after a
jump the trace shows the line of other code. -/

namespace Lox

namespace Machine

variable {host : Host} {hosts : Hosts} {m m' : Machine} {script : Function} {fuel : Nat}

/-! ### Noted runs -/

/-- For each active call, innermost first, the place of the instruction that it has read last; `none` if
    it has read none. -/
abbrev LastReads := List (Option Nat)

/-- Notes where the next instruction is fetched. -/
def noteFetch (m : Machine) (reads : LastReads) : LastReads :=
  match m.fetch? with
  | some frame => some frame.ip :: reads.tail
  | none => reads

/-- Follows the active calls after a step: a new call has read nothing, and one that has
    returned is forgotten. -/
def noteCalls (m : Machine) (reads : LastReads) : LastReads :=
  if reads.length < m.frames.length then none :: reads else reads.drop (reads.length - m.frames.length)

/-- Goes on for at most `fuel` steps and notes what the active calls have read last. -/
def advanceNoted (hosts : Hosts) (m : Machine) (reads : LastReads) : (fuel : Nat) → Progress × LastReads
  | 0 => (.running m, reads)
  | fuel + 1 =>
    let reads := m.noteFetch reads
    match step hosts m with
    | .next m => advanceNoted hosts m (m.noteCalls reads) fuel
    | .done m => (.done m, reads)
    | .fault m fault => (.failed m fault, reads)

/-- How far a run of a script has come after at most `fuel` steps, and what the active calls have read last. -/
def runNoted (hosts : Hosts) (fuel : Nat) (m : Machine) (script : Function) : Progress × LastReads :=
  match m.start script with
  | .running m => advanceNoted hosts m (m.frames.map fun _ => none) fuel
  | ended => (ended, [])

/-- To note a run does not change it. -/
theorem advanceNoted_fst (hosts : Hosts) (m : Machine) (reads : LastReads) (fuel : Nat) :
    (advanceNoted hosts m reads fuel).1 = advance hosts m fuel := by
  induction fuel generalizing m reads with
  | zero => rfl
  | succ fuel ih =>
    rw [advanceNoted, advance]
    cases step hosts m with
    | next m' => exact ih m' _
    | done m' | fault m' reason => rfl

theorem runNoted_fst (hosts : Hosts) (fuel : Nat) (m : Machine) (script : Function) :
    (runNoted hosts fuel m script).1 = progress hosts fuel m script := by
  unfold runNoted progress
  cases m.start script with
  | running m₀ => exact advanceNoted_fst hosts m₀ _ fuel
  | done m₀ | failed m₀ fault => rfl

/-! ### Faults -/

/-- A fault of an instruction leaves the active calls as they are. The limit of steps is none, and the calls
    overflow only when there are as many as there may be. -/
abbrev Step.FailsInPlace (m : Machine) (s : Step) : Prop :=
  s.Satisfies (fun _ => True) (fun _ => True) fun m' fault =>
    m'.frames = m.frames ∧ (fault.IsLimit → fault = .stackOverflow ∧ m.limits.maxFrames ≤ m.frames.length)

theorem unary_failsInPlace (m : Machine) {f : Value → Except Fault Value}
    (hf : ∀ a fault, f a = .error fault → ¬fault.IsLimit) :
    (m.unary f).FailsInPlace m := by
  unfold Machine.unary
  split
  · exact ⟨rfl, False.elim⟩
  · split
    · trivial
    · rename_i a _ _ fault hfault
      exact ⟨rfl, fun hlimit => absurd hlimit (hf a fault hfault)⟩

theorem binary_failsInPlace (m : Machine) {f : Value → Value → Except Fault Value}
    (hf : ∀ a b fault, f a b = .error fault → ¬fault.IsLimit) : (m.binary f).FailsInPlace m := by
  unfold Machine.binary
  split
  · split
    · trivial
    · rename_i a b _ _ _ fault hfault
      exact ⟨rfl, fun hlimit => absurd hlimit (hf a b fault hfault)⟩
  · exact ⟨rfl, False.elim⟩

theorem numeric_no_limit {f : Float → Float → Value} (a b : Value) (fault : Fault)
    (h : numeric f a b = .error fault) :
    ¬fault.IsLimit := by
  unfold numeric at h
  split at h <;> cases h
  exact id

theorem add_no_limit (a b : Value) (fault : Fault) (h : add a b = .error fault) : ¬fault.IsLimit := by
  unfold add at h
  split at h <;> cases h
  exact id

theorem negate_no_limit (a : Value) (fault : Fault) (h : negate a = .error fault) : ¬fault.IsLimit := by
  unfold negate at h
  split at h <;> cases h
  exact id

theorem name_no_limit {frame : Frame} {index : UInt8} {fault : Fault} (h : frame.name index = .error fault) :
    ¬fault.IsLimit := by
  unfold Frame.name at h
  split at h <;> cases h <;> exact id

theorem call_failsInPlace (host : Host) (m : Machine) (count : UInt8) : (call host m count).FailsInPlace m := by
  unfold Machine.call
  split
  · exact ⟨rfl, False.elim⟩
  · unfold Machine.callFunction
    split
    · exact ⟨rfl, False.elim⟩
    · split
      · rename_i hfull
        exact ⟨rfl, fun _ => ⟨rfl, hfull⟩⟩
      · split
        · exact ⟨rfl, False.elim⟩
        · trivial
  · unfold Machine.callNative
    split
    · exact ⟨rfl, False.elim⟩
    · dsimp only
      split
      · trivial
      · exact ⟨rfl, False.elim⟩
  · exact ⟨rfl, False.elim⟩

theorem leave_failsInPlace (m : Machine) : m.leave.FailsInPlace m := by
  unfold Machine.leave
  split
  · exact ⟨rfl, False.elim⟩
  · exact ⟨rfl, False.elim⟩
  · trivial
  · trivial

theorem perform_failsInPlace (host : Host) (m : Machine) (frame : Frame) (i : Instruction) :
    (perform host m frame i).FailsInPlace m := by
  cases i with
  | nil | trueValue | falseValue | jump => trivial
  | equal =>
    rw [perform]
    exact binary_failsInPlace m fun _ _ _ h => by cases h
  | greater | less | subtract | multiply | divide => exact binary_failsInPlace m numeric_no_limit
  | add => exact binary_failsInPlace m add_no_limit
  | logicalNot =>
    rw [perform]
    exact unary_failsInPlace m fun _ _ h => by cases h
  | negate => exact unary_failsInPlace m negate_no_limit
  | call count => exact call_failsInPlace host m count
  | ret => exact leave_failsInPlace m
  | constant | getLocal | loop =>
    rw [perform]
    split
    · trivial
    · exact ⟨rfl, False.elim⟩
  | pop | jumpIfFalse =>
    rw [perform]
    split
    · exact ⟨rfl, False.elim⟩
    · trivial
  | setLocal =>
    rw [perform]
    split
    · split
      · trivial
      · exact ⟨rfl, False.elim⟩
    · exact ⟨rfl, False.elim⟩
  | getGlobal index | defineGlobal index =>
    rw [perform]
    split
    · rename_i fault hname
      exact ⟨rfl, fun hlimit => absurd hlimit (name_no_limit hname)⟩
    · split
      · trivial
      · exact ⟨rfl, False.elim⟩
  | setGlobal index =>
    rw [perform]
    split
    · rename_i fault hname
      exact ⟨rfl, fun hlimit => absurd hlimit (name_no_limit hname)⟩
    · split
      · exact ⟨rfl, False.elim⟩
      · split
        · trivial
        · exact ⟨rfl, False.elim⟩
  | print =>
    rw [perform]
    split
    · exact ⟨rfl, False.elim⟩
    · split
      · trivial
      · exact ⟨rfl, False.elim⟩

/-! ### Calls and what they have read -/

end Machine

/-- An instruction leads to the next one or to its target. -/
theorem Instruction.Stays.target {chunk : Chunk} {places : Nat → Prop} {offset place : Nat} {i : Instruction}
    (h : i.Stays chunk places offset) (hplace : place ∈ i.leads offset) :
    place = offset + i.size ∨ i.target? offset = some place := by
  cases i with
  | ret => cases hplace
  | jump distance =>
    rw [List.mem_singleton.mp hplace]
    exact Or.inr rfl
  | jumpIfFalse distance =>
    rcases List.mem_cons.mp hplace with rfl | hplace
    · exact Or.inl rfl
    · rw [List.mem_singleton.mp hplace]
      exact Or.inr rfl
  | loop distance =>
    rw [List.mem_singleton.mp hplace]
    exact Or.inr (if_pos (h.back distance rfl))
  | _ => exact Or.inl (List.mem_singleton.mp hplace)

namespace Frame

/-- A call stands where the instruction that it has read last leads, or at the beginning of its code if
    it has read none. -/
inductive Follows (frame : Frame) : Option Nat → Prop
  | entry (hip : frame.ip = 0) : Follows frame none
  | read {place : Nat} {i : Instruction} (hstart : frame.function.chunk.IsStart place)
    (hread : Instruction.read frame.function.chunk.code place = .instruction i)
      (hleads : frame.ip ∈ i.leads place) :
    Follows frame (some place)

/-- A call stands behind an instruction, which it has read last. -/
inductive HasRead (frame : Frame) (i : Instruction) : Option Nat → Prop
  | behind {place : Nat} (hstart : frame.function.chunk.IsStart place)
    (hread : Instruction.read frame.function.chunk.code place = .instruction i)
      (hip : frame.ip = place + i.size) :
    HasRead frame i (some place)

/-- A call waits for the one that it has called. -/
def Waits (frame : Frame) (read : Option Nat) : Prop :=
  frame.function.Compiled ∧ ∃ count, frame.HasRead (.call count) read

variable {frame : Frame} {read : Option Nat} {i : Instruction}

theorem Waits.follows (h : frame.Waits read) : frame.Follows read := by
  obtain ⟨-, count, hread⟩ := h
  cases hread with
  | behind hstart hread hip => exact .read hstart hread (List.mem_singleton.mpr hip)

/-- In a trace, a call of compiled code has the line of the instruction behind which it stands. -/
theorem line_entry (hcompiled : frame.function.Compiled) {place : Nat}
    (hstart : frame.function.chunk.IsStart place)
    (hread : Instruction.read frame.function.chunk.code place = .instruction i)
    (hip : frame.ip = place + i.size) :
    frame.function.chunk.line? place = some frame.entry.line := by
  obtain ⟨line, hline⟩ := hcompiled.exists_line hstart hread
  have hpos := i.size_pos
  have hlast : frame.ip - 1 = place + (i.size - 1) := by omega
  rw [entry, hlast, hline _ (Nat.sub_lt hpos Nat.one_pos)]
  exact hline 0 hpos

theorem HasRead.line (h : frame.HasRead i read) (hcompiled : frame.function.Compiled) :
    ∃ place, read = some place ∧ Instruction.read frame.function.chunk.code place = .instruction i ∧
    frame.function.chunk.line? place = some frame.entry.line := by
  cases h with
  | @behind place hstart hread hip => exact ⟨place, rfl, hread, line_entry hcompiled hstart hread hip⟩

/-- What a trace shows of a call that stands where its last instruction leads: the line of that instruction if
    it stands behind it, and after a jump the line of the instruction before its target. -/
inductive Shown (frame : Frame) (line : UInt32) : Option Nat → Prop
  /-- It has read nothing: the line of its first instruction. -/
  | entry (hip : frame.ip = 0) (hline : frame.function.chunk.line? 0 = some line) : Shown frame line none
  | next {place : Nat} {i : Instruction}
      (hread : Instruction.read frame.function.chunk.code place = .instruction i)
    (hip : frame.ip = place + i.size) (hline : frame.function.chunk.line? place = some line) :
      Shown frame line (some place)
  /-- It has jumped back to its first instruction: the line of that. -/
  | jumpedToEntry {place : Nat} {i : Instruction}
      (hread : Instruction.read frame.function.chunk.code place = .instruction i)
    (htarget : i.target? place = some 0) (hip : frame.ip = 0)
      (hline : frame.function.chunk.line? 0 = some line) :
    Shown frame line (some place)
  | jumped {place before : Nat} {i j : Instruction}
    (hread : Instruction.read frame.function.chunk.code place = .instruction i)
      (htarget : i.target? place = some frame.ip)
    (hbefore : Instruction.read frame.function.chunk.code before = .instruction j)
      (hip : frame.ip = before + j.size)
    (hline : frame.function.chunk.line? before = some line) : Shown frame line (some place)

theorem Follows.shown (h : frame.Follows read) (hcompiled : frame.function.Compiled)
    (hstart : frame.function.chunk.IsStart frame.ip) : frame.Shown frame.entry.line read := by
  have hbegin : frame.ip = 0 → frame.function.chunk.line? 0 = some frame.entry.line := by
    intro hip
    have hzero := hcompiled.verified.isStart_zero
    rcases Function.closed_compiled.inside hcompiled hzero with hend | ⟨i, hread, -⟩
    · exact absurd (hend ▸ hzero) hcompiled.verified.not_isStart_size
    · obtain ⟨line, hline⟩ := hcompiled.exists_line hzero hread
      have hfirst : frame.function.chunk.line? 0 = some line := hline 0 i.size_pos
      rw [Frame.entry, hip, Nat.zero_sub, hfirst]
      rfl
  cases h with
  | entry hip => exact .entry hip (hbegin hip)
  | @read place i hplace hread hleads =>
    rcases Function.closed_compiled.inside hcompiled hplace with hend | ⟨i', hread', hstays⟩
    · exact absurd (hend ▸ hplace) hcompiled.verified.not_isStart_size
    · cases hread.symm.trans hread'
      rcases hstays.target hleads with hip | htarget
      · exact .next hread hip (line_entry hcompiled hplace hread hip)
      · rcases Nat.eq_zero_or_pos frame.ip with hip | hpos
        · exact .jumpedToEntry hread (hip ▸ htarget) hip (hbegin hip)
        · obtain ⟨before, j, hbefore, hreadBefore, hip⟩ := hcompiled.exists_previous hstart hpos
          exact .jumped hread htarget hreadBefore hip.symm (line_entry hcompiled hbefore hreadBefore hip.symm)

end Frame

/-- An active call, with the instruction that it has read last and the place of that. -/
structure ActiveCall where
  frame : Frame
  place : Nat
  instruction : Instruction

/-- A trace shows active calls, innermost first: each by the line of the opcode that it has read last and by
    its name. All but the innermost have read a call. -/
structure ShowsCalls (trace : List TraceEntry) (calls : List ActiveCall) : Prop where
  reads : ∀ call ∈ calls, Instruction.read call.frame.function.chunk.code call.place =
    .instruction call.instruction
  callers : ∀ call ∈ calls.tail, ∃ count, call.instruction = .call count
  lines : trace.map (fun entry => some entry.line) = calls.map fun call =>
    call.frame.function.chunk.line? call.place
  names : trace.map (·.function) = calls.map fun call => call.frame.function.name.getD "script"

namespace Machine

variable {host : Host} {hosts : Hosts} {m m' : Machine} {script : Function} {fuel : Nat} {reads : LastReads}
    {reason : Fault}

/-- The innermost call stands where its last instruction leads, and all others wait. -/
inductive Noted : List Frame → LastReads → Prop
  | calls {frame : Frame} {callers : List Frame} {read : Option Nat} {reads : LastReads}
      (hframe : frame.Follows read)
    (hcallers : List.Forall₂ Frame.Waits callers reads) : Noted (frame :: callers) (read :: reads)

/-- A machine that runs compiled code within its limit of calls, with notes of what they have read last. -/
structure Traced (m : Machine) (reads : LastReads) : Prop where
  placed : Placed Function.Compiled (fun f place => f.chunk.IsStart place) m
  room : m.frames.length ≤ m.limits.maxFrames
  noted : Noted m.frames reads

/-- The innermost call of compiled code is about to read an instruction. -/
theorem Traced.exists_read (h : Traced m reads) : ∃ frame callers i, m.frames = frame :: callers ∧
    frame.function.Compiled ∧ frame.function.chunk.IsStart frame.ip ∧
    Instruction.read frame.function.chunk.code frame.ip = .instruction i := by
  obtain ⟨frame, callers, hframes⟩ := List.exists_cons_of_ne_nil h.placed.running
  obtain ⟨hfunction, hstart⟩ := h.placed.frames frame (by rw [hframes]; exact List.mem_cons_self)
  rcases Function.closed_compiled.inside hfunction hstart with hend | ⟨i, hread, -⟩
  · exact absurd (hend ▸ hstart) hfunction.verified.not_isStart_size
  · exact ⟨frame, callers, i, hframes, hfunction, hstart, hread⟩

theorem noteFetch_of_within (hlimit : m.limits.maxSteps.filter (· ≤ m.steps) = none) {frame : Frame}
    {callers : List Frame} (hframes : m.frames = frame :: callers) (reads : LastReads) :
    m.noteFetch reads = some frame.ip :: reads.tail := by
  unfold noteFetch fetch?
  rw [hlimit, hframes]
  rfl

theorem filter_eq_none_of_step (h : step hosts m = .next m') :
    m.limits.maxSteps.filter (· ≤ m.steps) = none := by
  unfold step at h
  split at h
  · cases h
  · assumption

theorem noteCalls_of_length_lt (h : reads.length < m.frames.length) : m.noteCalls reads = none :: reads :=
  if_pos h

theorem noteCalls_of_length_eq (h : m.frames.length = reads.length) : m.noteCalls reads = reads := by
  rw [noteCalls, if_neg (Nat.not_lt.mpr (Nat.le_of_eq h)), h, Nat.sub_self, List.drop_zero]

theorem noteCalls_cons (h : m.frames.length = reads.length) (read : Option Nat) :
    m.noteCalls (read :: reads) = reads := by
  have hdrop : (read :: reads).length - m.frames.length = 1 := by
    rw [h, List.length_cons, Nat.add_sub_cancel_left]
  rw [noteCalls, if_neg (by rw [h, List.length_cons]; omega), hdrop, List.drop_one, List.tail_cons]

/-- A step keeps the notes true. -/
theorem Traced.step (hhosts : hosts.Keeps Function.Compiled) (h : Traced m reads)
    (hstep : Machine.step hosts m = .next m') :
    Traced m' (m'.noteCalls (m.noteFetch reads)) := by
  obtain ⟨frame, callers, i, hframes, hcompiled, hstart, hread⟩ := h.exists_read
  obtain ⟨j, hread', hmoves⟩ := moves_step hframes hstep
  cases hread.symm.trans hread'
  have hplaced := h.placed.step Function.closed_compiled hhosts
  have hkeeps := step_keeps hosts m
  rw [hstep] at hplaced hkeeps
  have hlimits : m'.limits = m.limits := hkeeps.1
  have hroom := h.room
  have hnoted := h.noted
  rw [noteFetch_of_within (filter_eq_none_of_step hstep) hframes]
  rw [hframes] at hnoted hroom
  cases hnoted with
  | @calls _ _ read rest hframe hcallers =>
    have hlength := hcallers.length_eq
    rw [List.tail_cons]
    cases hmoves with
    | stay ip hleads hframes' =>
      refine ⟨hplaced, by rw [hlimits, hframes']; exact hroom, ?_⟩
      rw [noteCalls_of_length_eq (by rw [hframes', List.length_cons, List.length_cons, hlength]), hframes']
      exact .calls (.read hstart hread (hleads frame.ip rfl)) hcallers
    | enter count callee hcall hentry hfree _ hframes' _ =>
      refine ⟨hplaced, by rw [hlimits, hframes']; exact hfree, ?_⟩
      rw [noteCalls_of_length_lt (by rw [hframes']; simp [hlength]), hframes']
      subst hcall
      exact .calls (.entry hentry) (.cons ⟨hcompiled, count, .behind hstart hread rfl⟩ hcallers)
    | leave result _ hframes' _ =>
      refine ⟨hplaced, by rw [hlimits, hframes']; exact Nat.le_of_succ_le hroom, ?_⟩
      have hrunning := hplaced.running
      rw [noteCalls_cons (by rw [hframes', hlength])]
      rw [hframes'] at hrunning ⊢
      cases hcallers with
      | nil => exact absurd rfl hrunning
      | cons hcaller hcallers => exact .calls hcaller.follows hcallers

/-- A fault other than the limit of steps leaves the calls behind the instructions that they have read last. -/
theorem Traced.fault (h : Traced m reads) (hstep : Machine.step hosts m = .fault m' reason)
    (hlimit : ∀ limit, reason ≠ .stepLimit limit) : ∃ frame callers i read rest, m'.frames = frame :: callers ∧
      m.noteFetch reads = read :: rest ∧ frame.function.Compiled ∧ frame.HasRead i read ∧
      List.Forall₂ Frame.Waits callers rest ∧ m'.frames.length ≤ m.limits.maxFrames ∧
      (reason = .stackOverflow → m'.frames.length = m.limits.maxFrames) := by
  obtain ⟨frame, callers, i, hframes, hcompiled, hstart, hread⟩ := h.exists_read
  have hroom := h.room
  have hnoted := h.noted
  rw [hframes] at hnoted hroom
  rw [step_eq hframes hread] at hstep
  cases hnoted with
  | @calls _ _ read rest hframe hcallers =>
    split at hstep
    · cases hstep
      exact absurd rfl (hlimit _)
    · rename_i hwithin
      have hplace := perform_failsInPlace (hosts.during m.steps)
        { m with steps := m.steps + 1, frames := { frame with ip := frame.ip + i.size } :: callers }
        { frame with ip := frame.ip + i.size } i
      rw [hstep] at hplace
      obtain ⟨hframes', hfull⟩ := hplace
      refine ⟨{ frame with ip := frame.ip + i.size }, callers, i, some frame.ip, rest, hframes',
        noteFetch_of_within hwithin hframes _, hcompiled, .behind hstart hread rfl, hcallers, ?_,
        fun hoverflow => ?_⟩
      · rw [hframes']
        exact hroom
      · rw [hframes']
        exact Nat.le_antisymm hroom (hfull (hoverflow ▸ trivial)).2

/-- Where the limit of steps ends a run, nothing has been read since the last step. -/
theorem Traced.stepLimit (h : Traced m reads) {limit : Nat}
    (hstep : Machine.step hosts m = .fault m' (.stepLimit limit)) :
    m' = m ∧ m.noteFetch reads = reads := by
  obtain ⟨frame, callers, i, hframes, -, -, hread⟩ := h.exists_read
  rw [step_eq hframes hread] at hstep
  split at hstep
  · rename_i hlimit
    cases hstep
    refine ⟨rfl, ?_⟩
    unfold noteFetch fetch?
    rw [hlimit]
  · have hplace := perform_failsInPlace (hosts.during m.steps)
      { m with steps := m.steps + 1, frames := { frame with ip := frame.ip + i.size } :: callers }
      { frame with ip := frame.ip + i.size } i
    rw [hstep] at hplace
    cases (hplace.2 trivial).1

/-! ### What a trace shows -/

theorem exists_waiting {frames : List Frame} (h : List.Forall₂ Frame.Waits frames reads) :
    ∃ calls : List ActiveCall,
    frames = calls.map (·.frame) ∧ reads = calls.map (fun call => some call.place) ∧
    (∀ call ∈ calls, Instruction.read call.frame.function.chunk.code call.place =
      .instruction call.instruction ∧ ∃ count, call.instruction = .call count) ∧
    (frames.map Frame.entry).map (fun entry => some entry.line) =
      calls.map fun call => call.frame.function.chunk.line? call.place := by
  induction h with
  | nil => exact ⟨[], rfl, rfl, fun _ h => absurd h List.not_mem_nil, rfl⟩
  | @cons frame read frames reads hframe _ ih =>
    obtain ⟨hcompiled, count, hread⟩ := hframe
    obtain ⟨place, rfl, hread, hline⟩ := hread.line hcompiled
    obtain ⟨calls, rfl, rfl, hcalls, hlines⟩ := ih
    refine ⟨⟨frame, place, .call count⟩ :: calls, rfl, rfl,
      List.forall_mem_cons.mpr ⟨⟨hread, count, rfl⟩, hcalls⟩, ?_⟩
    rw [List.map_cons, List.map_cons, List.map_cons, hlines, hline]

/-- The trace of a fault other than the limit of steps shows every active call by the instruction that
    it has read last. -/
theorem Traced.exists_calls (h : Traced m reads) (hstep : Machine.step hosts m = .fault m' reason)
    (hlimit : ∀ limit, reason ≠ .stepLimit limit) : ∃ calls : List ActiveCall, m'.frames = calls.map (·.frame) ∧
      m.noteFetch reads = calls.map (fun call => some call.place) ∧ ShowsCalls m'.trace calls := by
  obtain ⟨frame, callers, i, read, rest, hframes, hreads, hcompiled, hread, hcallers, -, -⟩ :=
    h.fault hstep hlimit
  obtain ⟨place, rfl, hread, hline⟩ := hread.line hcompiled
  obtain ⟨calls, rfl, rfl, hcalls, hlines⟩ := exists_waiting hcallers
  refine ⟨⟨frame, place, i⟩ :: calls, hframes, hreads, ?_⟩
  refine ⟨List.forall_mem_cons.mpr ⟨hread, fun call hcall => (hcalls call hcall).1⟩,
    fun call hcall => (hcalls call hcall).2, ?_, ?_⟩
  · rw [trace, hframes, List.map_cons, List.map_cons, List.map_cons, hlines, hline]
  · rw [trace, hframes]
    simp [Frame.entry, Function.frameName]

/-! ### Runs -/

theorem Traced.advanceNoted (hhosts : hosts.Keeps Function.Compiled) (h : Traced m reads) {reads' : LastReads}
    (hrun : Machine.advanceNoted hosts m reads fuel = (.failed m' reason, reads')) :
    ∃ m₁ reads₁, Traced m₁ reads₁ ∧
      m₁.limits = m.limits ∧ Machine.step hosts m₁ = .fault m' reason ∧ reads' = m₁.noteFetch reads₁ := by
  induction fuel generalizing m reads with
  | zero => cases hrun
  | succ fuel ih =>
    have hkeeps := step_keeps hosts m
    rw [Machine.advanceNoted] at hrun
    split at hrun
    · rename_i m₁ hstep
      rw [hstep] at hkeeps
      obtain ⟨m₂, reads₂, htraced, hlimits, hfault, hreads⟩ := ih (h.step hhosts hstep) hrun
      exact ⟨m₂, reads₂, htraced, hlimits.trans hkeeps.1, hfault, hreads⟩
    · cases hrun
    · rename_i hstep
      cases hrun
      exact ⟨m, reads, h, rfl, hstep, rfl⟩

/-- A run of compiled code that fails was refused at the start, with no calls, or fails in a step from a
    state with true notes. -/
theorem runNoted_failed (hhosts : hosts.Keeps Function.Compiled) (hglobals : m.globals.In Function.Compiled)
    (hscript : script.Compiled) (hrun : runNoted hosts fuel m script = (.failed m' reason, reads)) :
    (m'.frames = [] ∧ reads = [] ∧ (∀ limit, reason ≠ .stepLimit limit) ∧
      (reason = .stackOverflow → m.limits.maxFrames = 0)) ∨
      ∃ m₁ reads₁, Traced m₁ reads₁ ∧ m₁.limits = m.limits ∧ step hosts m₁ = .fault m' reason ∧
        reads = m₁.noteFetch reads₁ := by
  unfold runNoted at hrun
  cases hstart : m.start script with
  | running m₀ =>
    rw [hstart] at hrun
    have hplaced := Reaches.placed Function.closed_compiled hhosts hglobals hscript ⟨m₀, 0, hstart, rfl⟩
    have htraced : Traced m₀ (m₀.frames.map fun _ => none) := by
      rw [start_eq] at hstart
      split at hstart
      · cases hstart
      · split at hstart
        · cases hstart
        · rename_i hroom
          cases hstart
          exact ⟨hplaced, Nat.one_le_iff_ne_zero.mpr hroom, .calls (.entry rfl) .nil⟩
    rw [← (of_start_running hstart).1]
    exact Or.inr (htraced.advanceNoted hhosts hrun)
  | done m₀ =>
    rw [hstart] at hrun
    cases hrun
  | failed m₀ fault =>
    rw [hstart] at hrun
    cases hrun
    rw [start_eq] at hstart
    refine Or.inl ?_
    split at hstart
    · cases hstart
      exact ⟨rfl, rfl, fun limit => by simp, fun h => by cases h⟩
    · split at hstart
      · rename_i hfull
        cases hstart
        exact ⟨rfl, rfl, fun limit => by simp, fun _ => hfull⟩
      · cases hstart

/-- A run that ends with an error can be noted, and the error has the trace of its last machine. -/
theorem exists_noted_of_error {o : Outcome} (hrun : m.run hosts fuel script = some o) {error : RuntimeError}
    (herror : o.result = .error error) : ∃ stopped reads,
      runNoted hosts fuel m script = (.failed stopped error.fault, reads) ∧ error.trace = stopped.trace := by
  rw [run_eq, ← runNoted_fst] at hrun
  generalize runNoted hosts fuel m script = noted at hrun
  obtain ⟨progress, reads⟩ := noted
  cases progress with
  | running m₁ => cases hrun
  | done m₁ =>
    cases hrun
    cases herror
  | failed m₁ fault =>
    cases hrun
    cases herror
    exact ⟨m₁, reads, rfl, rfl⟩

/-- Where the limit of steps stops a run of a compiled script, the innermost entry of the trace shows the
    instruction that the call has read last, or its first one if it has read none or has jumped there; but
    after any other jump it shows the instruction before the target, wherever the jump came from. -/
theorem step_limit_line (hhosts : hosts.Faithful) (hglobals : m.globals.In Function.Compiled) {source : String}
    (hcompile : compile source = .ok script) {o : Outcome} (hrun : m.run hosts fuel script = some o)
    {error : RuntimeError}
    (herror : o.result = .error error) {limit : Nat} (hlimit : error.fault = .stepLimit limit) :
    ∃ stopped frame callers read reads entry entries,
      runNoted hosts fuel m script = (.failed stopped error.fault, read :: reads) ∧
      stopped.frames = frame :: callers ∧ error.trace = entry :: entries ∧ frame.Shown entry.line read := by
  obtain ⟨stopped, reads, hnoted, htrace⟩ := exists_noted_of_error hrun herror
  have hscript : script.Compiled := ⟨source, script, hcompile, script.mem_all_self⟩
  rcases runNoted_failed (hhosts.keeps _) hglobals hscript hnoted with ⟨-, -, hno, -⟩ |
    ⟨m₁, reads₁, htraced, -, hstep, rfl⟩
  · exact absurd hlimit (hno limit)
  · rw [hlimit] at hstep
    obtain ⟨rfl, hsame⟩ := htraced.stepLimit hstep
    rw [hsame] at hnoted
    obtain ⟨frame, callers, i, hframes, hcompiled, hstart, -⟩ := htraced.exists_read
    have hcalls := htraced.noted
    rw [hframes] at hcalls
    rw [trace, hframes] at htrace
    cases hcalls with
    | calls hframe hcallers =>
      exact ⟨stopped, frame, callers, _, _, _, _, hnoted, hframes, htrace, hframe.shown hcompiled hstart⟩

/-- A loop without an end, stopped in its second round. -/
theorem step_limit_line_loop : ∃ script o error stopped frame callers read reads entry entries,
    compile "1;\nwhile (true) {}" = .ok script ∧
    (Machine.new ⟨64, some 6⟩ {}).run (Host.standard 0) 7 script = some o ∧ o.result = .error error ∧
    error.fault = .stepLimit 6 ∧
    runNoted (Host.standard 0) 7 (Machine.new ⟨64, some 6⟩ {}) script = (.failed stopped error.fault,
      read :: reads) ∧
    stopped.frames = frame :: callers ∧ error.trace = entry :: entries ∧ frame.Shown entry.line read := by
  have hruns : ((compile "1;\nwhile (true) {}").toOption.any fun script =>
      ((Machine.new ⟨64, some 6⟩ {}).run (Host.standard 0) 7 script).any fun o =>
        decide (o.result.mapError RuntimeError.fault = .error (.stepLimit 6))) = true := by decide +kernel
  obtain ⟨script, hcompile, hstops⟩ := exists_ok_of_any hruns
  obtain ⟨o, hrun, hresult⟩ := (Option.any_eq_true _ _).mp hstops
  cases herror : o.result with
  | ok _ =>
    rw [herror] at hresult
    cases of_decide_eq_true hresult
  | error error =>
    rw [herror] at hresult
    have hfault : error.fault = .stepLimit 6 := Except.error.inj (of_decide_eq_true hresult)
    obtain ⟨stopped, frame, callers, read, reads, entry, entries, hnoted, hframes, htrace, hshown⟩ :=
      step_limit_line (Host.faithful_standard 0).always (globals_new _ _ _) hcompile hrun herror hfault
    exact ⟨script, o, error, stopped, frame, callers, read, reads, entry, entries, hcompile, hrun, herror,
      hfault, hnoted, hframes, htrace, hshown⟩

/-- The loop has gone back to its second line and is about to go on there, but the trace
    shows the first line. -/
theorem step_limit_shows_other_line : ∃ script o error stopped frame callers place reads entry entries,
    compile "1;\nwhile (true) {}" = .ok script ∧
    (Machine.new ⟨64, some 6⟩ {}).run (Host.standard 0) 7 script = some o ∧ o.result = .error error ∧
    error.fault = .stepLimit 6 ∧
    runNoted (Host.standard 0) 7 (Machine.new ⟨64, some 6⟩ {}) script =
      (.failed stopped error.fault, some place :: reads) ∧
    stopped.frames = frame :: callers ∧ error.trace = entry :: entries ∧
      frame.function.chunk.line? place = some 2 ∧
    frame.function.chunk.line? frame.ip = some 2 ∧ entry.line = 1 := by
  have hruns : ((compile "1;\nwhile (true) {}").toOption.any fun script =>
      ((Machine.new ⟨64, some 6⟩ {}).run (Host.standard 0) 7 script).any fun o =>
        let noted := runNoted (Host.standard 0) 7 (Machine.new ⟨64, some 6⟩ {}) script
        decide (o.result = .error ⟨.stepLimit 6, [⟨1, "script"⟩]⟩ ∧ noted.2 = [some 8] ∧
          noted.1.machine.frames.map
            (fun frame => (frame.function.chunk.line? 8, frame.function.chunk.line? frame.ip)) =
            [(some 2, some 2)])) = true := by decide +kernel
  obtain ⟨script, hcompile, hstops⟩ := exists_ok_of_any hruns
  obtain ⟨o, hrun, hchecks⟩ := (Option.any_eq_true _ _).mp hstops
  obtain ⟨herror, hplaces, hlines⟩ := of_decide_eq_true hchecks
  obtain ⟨stopped, reads, hnoted, -⟩ := exists_noted_of_error hrun herror
  rw [hnoted] at hplaces hlines
  obtain ⟨frame, callers, hframes, hline, -⟩ := List.map_eq_cons_iff.mp hlines
  obtain ⟨hlast, hnext⟩ := Prod.mk.inj hline
  cases hplaces
  exact ⟨script, o, _, stopped, frame, callers, 8, [], _, [], hcompile, hrun, herror, rfl, hnoted, hframes,
    rfl, hlast, hnext, rfl⟩

end Machine

end Lox
