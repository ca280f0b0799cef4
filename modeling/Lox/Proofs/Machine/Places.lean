import Lox.Proofs.Machine.Discipline
import Lox.Verify

/-! # Places in code

A set of functions, with a set of places in the code of each, is closed if every instruction at one of the
places has the constants that it mentions and leads only to places of the set. A machine that runs such
functions stays at these places, whatever it has on the stack, and reads every instruction as it stands there;
only at the end of the code it finds none. -/

namespace Lox

/-- The faults of a machine that cannot read an instruction or an operand of it. -/
def Fault.IsMisreading : Fault → Prop
  | .pastEnd | .unknownOpcode _ | .constantRange _ | .nameExpected _ | .loopBeforeStart => True
  | _ => False

theorem Fault.IsMisreading.isCorruption {fault : Fault} (h : fault.IsMisreading) : fault.IsCorruption := by
  cases fault with
  | pastEnd | unknownOpcode | constantRange | nameExpected | loopBeforeStart => trivial
  | stepLimit | stackUnderflow | stackOverflow | noFrame | localRange | undefinedVariable | operandNotNumber
  | operandsNotNumbers | operandsNotAddable | notCallable | arity | native | output => exact False.elim h

/-- An instruction at `offset` has the constants that it mentions, and leads only to places of a set. -/
structure Instruction.Stays (chunk : Chunk) (places : Nat → Prop) (offset : Nat) (i : Instruction) : Prop where
  constants : chunk.constantFlaw? offset i = none
  back : ∀ distance, i = .loop distance → distance.toNat ≤ offset + 3
  leads : ∀ place ∈ i.leads offset, places place

/-- A set of functions, with places in the code of each, is closed under what their instructions do. -/
structure Function.Closed (S : Function → Prop) (places : Function → Nat → Prop) : Prop where
  entry : ∀ {f : Function}, S f → places f 0
  constant : ∀ {f g : Function}, S f → .function g ∈ f.chunk.constants → S g
  inside : ∀ {f : Function} {offset : Nat}, S f → places f offset → offset = f.chunk.size ∨ ∃ i : Instruction,
    Instruction.read f.chunk.code offset = .instruction i ∧ i.Stays f.chunk (places f) offset

namespace Chunk

variable {chunk : Chunk} {offset : Nat} {index : UInt8}

theorem exists_constant (h : chunk.constantFlaw? offset (.constant index) = none) :
    ∃ constant, chunk.constant? index = some constant := by
  unfold constantFlaw? at h
  cases hconstant : chunk.constant? index with
  | some constant => exact ⟨constant, rfl⟩
  | none => simp [hconstant] at h

theorem exists_name {i : Instruction} (h : chunk.constantFlaw? offset i = none)
    (hi : i = .getGlobal index ∨ i = .defineGlobal index ∨ i = .setGlobal index) :
    ∃ name, chunk.constant? index = some (.string name) := by
  rcases hi with rfl | rfl | rfl <;>
  · unfold constantFlaw? at h
    dsimp only at h
    split at h
    · cases h
    · rename_i name hname
      exact ⟨name, hname⟩
    · cases h

end Chunk

namespace Machine

variable {S : Function → Prop} {places : Function → Nat → Prop} {host : Host} {hosts : Hosts} {m : Machine}

/-- A machine whose functions are in a set, with every call at one of the places of its function. -/
structure Placed (S : Function → Prop) (places : Function → Nat → Prop) (m : Machine) : Prop where
  stack : ∀ value ∈ m.stack, value.In S
  globals : m.globals.In S
  running : m.frames ≠ []
  frames : ∀ frame ∈ m.frames, S frame.function ∧ places frame.function frame.ip

/-- An instruction that leaves the machine at its places, or fails though it was read. -/
abbrev Step.Placed (S : Function → Prop) (places : Function → Nat → Prop) (s : Step) : Prop :=
  s.Satisfies (Machine.Placed S places) (fun _ => True) fun _ reason => ¬reason.IsMisreading

/-! ### Instructions -/

section

variable {frame : Frame} {callers : List Frame} {i : Instruction} {offset : Nat}

/-- A machine that has read an instruction of its innermost call, before it performs it. -/
structure Fetched (S : Function → Prop) (places : Function → Nat → Prop) (m : Machine) (frame : Frame)
    (callers : List Frame) (offset : Nat) (i : Instruction) : Prop where
  stack : ∀ value ∈ m.stack, value.In S
  globals : m.globals.In S
  frames : m.frames = frame :: callers
  ip : frame.ip = offset + i.size
  function : S frame.function
  stays : i.Stays frame.function.chunk (places frame.function) offset
  callers : ∀ caller ∈ callers, S caller.function ∧ places caller.function caller.ip

/-- The innermost call goes on at a place to which its instruction leads. -/
theorem Fetched.goOn (h : Fetched S places m frame callers offset i) {m' : Machine} (place : Nat)
    (hframes : m'.frames = { frame with ip := place } :: callers) (hplace : place ∈ i.leads offset)
    (hstack : ∀ value ∈ m'.stack, value.In S) (hglobals : m'.globals.In S) : Placed S places m' where
  stack := hstack
  globals := hglobals
  running := by
    rw [hframes]
    exact List.cons_ne_nil _ _
  frames := by
    rw [hframes]
    exact List.forall_mem_cons.mpr ⟨⟨h.function, h.stays.leads place hplace⟩, h.callers⟩

/-- The innermost call goes on with its next instruction. -/
theorem Fetched.next (h : Fetched S places m frame callers offset i)
    (hleads : i.leads offset = [offset + i.size])
    {m' : Machine} (hframes : m'.frames = m.frames) (hstack : ∀ value ∈ m'.stack, value.In S)
    (hglobals : m'.globals.In S) : Placed S places m' := by
  refine h.goOn frame.ip ?_ ?_ hstack hglobals
  · rw [hframes, h.frames]
  · rw [hleads, h.ip]
    exact List.mem_singleton_self _

theorem Fetched.push (h : Fetched S places m frame callers offset i)
    (hleads : i.leads offset = [offset + i.size])
    {value : Value} (hvalue : value.In S) : Placed S places (m.push value) :=
  h.next hleads rfl (in_push h.stack hvalue) h.globals

theorem Fetched.peek (h : Fetched S places m frame callers offset i) {distance : Nat} {value : Value}
    (hpeek : m.peek? distance = some value) : value.In S := by
  unfold peek? at hpeek
  split at hpeek
  · exact h.stack value (Array.mem_of_getElem? hpeek)
  · cases hpeek

theorem Fetched.unary (h : Fetched S places m frame callers offset i)
    (hleads : i.leads offset = [offset + i.size])
    {f : Value → Except Fault Value} (hok : ∀ a value, f a = .ok value → value.In S)
    (herror : ∀ a fault, f a = .error fault → ¬fault.IsCorruption) : (m.unary f).Placed S places := by
  unfold Machine.unary
  split
  · exact id
  · rename_i a _
    split
    · rename_i value hf
      exact h.next hleads rfl (in_push (fun v hv => h.stack v (mem_of_mem_pop hv)) (hok a value hf)) h.globals
    · rename_i fault hf
      exact fun hmisreading => herror a fault hf hmisreading.isCorruption

theorem Fetched.binary (h : Fetched S places m frame callers offset i)
    (hleads : i.leads offset = [offset + i.size])
    {f : Value → Value → Except Fault Value} (hok : ∀ a b value, f a b = .ok value → value.In S)
    (herror : ∀ a b fault, f a b = .error fault → ¬fault.IsCorruption) : (m.binary f).Placed S places := by
  unfold Machine.binary
  split
  · rename_i a b _ _
    split
    · rename_i value hf
      exact h.next hleads rfl (in_push (fun v hv => h.stack v (mem_of_mem_pop (mem_of_mem_pop hv)))
          (hok a b value hf))
        h.globals
    · rename_i fault hf
      exact fun hmisreading => herror a b fault hf hmisreading.isCorruption
  · exact id

theorem Fetched.callFunction (hclosed : Function.Closed S places) {count : UInt8}
    (h : Fetched S places m frame callers offset (.call count)) {id : ObjectId} {f : Function} (hf : S f) :
    (m.callFunction id f count).Placed S places := by
  unfold Machine.callFunction
  split
  · exact fun hfault => hfault
  · split
    · exact fun hfault => hfault
    · split
      · exact fun hfault => hfault
      · have hnext : Placed S places m := h.next rfl rfl h.stack h.globals
        refine ⟨h.stack, h.globals, List.cons_ne_nil _ _, ?_⟩
        exact List.forall_mem_cons.mpr ⟨⟨hf, hclosed.entry hf⟩, hnext.frames⟩

theorem Fetched.callNative (hhost : host.Keeps S) {count : UInt8}
    (h : Fetched S places m frame callers offset (.call count)) (native : Native) :
    (callNative host m native count).Placed S places := by
  unfold Machine.callNative
  split
  · exact id
  · dsimp only
    split
    · rename_i value hvalue
      have hin : value.In S := hhost _ _ value (fun v hv => h.stack v (mem_of_mem_extract hv)) hvalue
      exact h.next rfl rfl (in_push (fun v hv => h.stack v (mem_of_mem_shrink hv)) hin) h.globals
    · exact id

theorem Fetched.call (hclosed : Function.Closed S places) (hhost : host.Keeps S) {count : UInt8}
    (h : Fetched S places m frame callers offset (.call count)) : (call host m count).Placed S places := by
  unfold Machine.call
  split
  · exact id
  · rename_i id f hpeek
    exact h.callFunction hclosed (h.peek hpeek id f rfl)
  · exact h.callNative hhost _
  · exact id

theorem Fetched.leave (h : Fetched S places m frame callers offset .ret) : (m.leave).Placed S places := by
  unfold Machine.leave
  rw [h.frames]
  split
  · exact id
  · rename_i heq
    cases heq
  · exact trivial
  · rename_i result _ _ hmore hpeek heq
    cases heq
    refine ⟨in_push (fun v hv => ?_) (h.peek hpeek), h.globals, hmore, h.callers⟩
    exact h.stack v (mem_of_mem_pop (mem_of_mem_shrink hv))

theorem Fetched.perform (hclosed : Function.Closed S places) (hhost : host.Keeps S)
    (h : Fetched S places m frame callers offset i) : (perform host m frame i).Placed S places := by
  cases i with
  | constant index =>
    obtain ⟨constant, hconstant⟩ := Chunk.exists_constant h.stays.constants
    have hload : frame.constant? index = some (constant.load (frame.id.child index.toNat)) := by
      rw [Frame.constant?, hconstant]
      rfl
    rw [Machine.perform, hload]
    refine h.push rfl fun id f heq => ?_
    cases constant with
    | function g =>
      cases heq
      exact hclosed.constant h.function (List.mem_of_getElem? hconstant)
    | nil | bool | number | string | native => cases heq
  | nil | trueValue | falseValue => exact h.push rfl fun _ _ heq => by cases heq
  | pop =>
    rw [Machine.perform]
    split
    · exact id
    · exact h.next rfl rfl (fun v hv => h.stack v (mem_of_mem_pop hv)) h.globals
  | getLocal slot =>
    rw [Machine.perform]
    split
    · rename_i value hvalue
      exact h.push rfl (h.stack value (Array.mem_of_getElem? hvalue))
    · exact id
  | setLocal slot =>
    rw [Machine.perform]
    split
    · split
      · rename_i value hpeek
        refine h.next rfl rfl (fun v hv => ?_) h.globals
        rcases Array.mem_or_eq_of_mem_setIfInBounds hv with hv | rfl
        · exact h.stack v hv
        · exact h.peek hpeek
      · exact id
    · exact id
  | getGlobal index =>
    obtain ⟨name, hname⟩ := Chunk.exists_name h.stays.constants (Or.inl rfl)
    rw [Machine.perform, Reads.name hname]
    dsimp only
    split
    · rename_i value hvalue
      exact h.push rfl (h.globals.get? hvalue)
    · exact id
  | defineGlobal index =>
    obtain ⟨name, hname⟩ := Chunk.exists_name h.stays.constants (Or.inr (Or.inl rfl))
    rw [Machine.perform, Reads.name hname]
    dsimp only
    split
    · rename_i value hpeek
      exact h.next rfl rfl (fun v hv => h.stack v (mem_of_mem_pop hv)) (h.globals.define name (h.peek hpeek))
    · exact id
  | setGlobal index =>
    obtain ⟨name, hname⟩ := Chunk.exists_name h.stays.constants (Or.inr (Or.inr rfl))
    rw [Machine.perform, Reads.name hname]
    dsimp only
    split
    · exact id
    · rename_i value hpeek
      split
      · rename_i globals hassign
        exact h.next rfl rfl h.stack (h.globals.assign? (h.peek hpeek) hassign)
      · exact id
  | equal =>
    rw [Machine.perform]
    refine h.binary rfl (fun a b value heq => ?_) fun a b fault heq => by cases heq
    cases heq
    exact fun _ _ heq => by cases heq
  | greater | less | subtract | multiply | divide =>
    exact h.binary rfl (numeric_ok fun _ _ _ _ heq => by cases heq) numeric_error
  | add => exact h.binary rfl add_ok add_error
  | logicalNot =>
    rw [Machine.perform]
    refine h.unary rfl (fun a value heq => ?_) fun a fault heq => by cases heq
    cases heq
    exact fun _ _ heq => by cases heq
  | negate => exact h.unary rfl negate_ok negate_error
  | print =>
    rw [Machine.perform]
    split
    · exact id
    · split
      · exact h.next rfl rfl (fun v hv => h.stack v (mem_of_mem_pop hv)) h.globals
      · exact id
  | jump distance =>
    refine h.goOn (frame.ip + distance.toNat) ?_ ?_ h.stack h.globals
    · rw [goTo, h.frames]
      rfl
    · rw [h.ip]
      exact List.mem_singleton_self _
  | jumpIfFalse distance =>
    rw [Machine.perform]
    split
    · exact id
    · split
      · refine h.goOn (frame.ip + distance.toNat) ?_ ?_ h.stack h.globals
        · rw [goTo, h.frames]
          rfl
        · rw [h.ip]
          exact List.mem_cons_of_mem _ (List.mem_singleton_self _)
      · refine h.goOn frame.ip h.frames ?_ h.stack h.globals
        rw [h.ip]
        exact List.mem_cons_self
  | loop distance =>
    have hle : distance.toNat ≤ frame.ip := by
      rw [h.ip]
      exact h.stays.back distance rfl
    rw [Machine.perform, if_pos hle]
    refine h.goOn (frame.ip - distance.toNat) ?_ ?_ h.stack h.globals
    · rw [goTo, h.frames]
      rfl
    · rw [h.ip]
      exact List.mem_singleton_self _
  | call count => exact h.call hclosed hhost
  | ret => exact h.leave

end

/-! ### Steps -/

/-- The machine is about to read at the end of the code, which is one of its places. -/
def AtEnd (places : Function → Nat → Prop) (m : Machine) : Prop :=
  ∃ frame callers, m.frames = frame :: callers ∧ places frame.function frame.ip ∧
    frame.ip = frame.function.chunk.size

/-- A step from some place leads to another, or ends the run. An instruction is misread only at
    the end of the code. -/
theorem Placed.step (hclosed : Function.Closed S places) (hhosts : hosts.Keeps S) (h : Placed S places m) :
    (step hosts m).Satisfies (Placed S places) (fun _ => True) fun _ reason =>
      reason.IsMisreading → reason = .pastEnd ∧ AtEnd places m := by
  cases hframes : m.frames with
  | nil => exact absurd hframes h.running
  | cons frame callers =>
    have hcalls := h.frames
    rw [hframes, List.forall_mem_cons] at hcalls
    obtain ⟨⟨hfunction, hplace⟩, hcallers⟩ := hcalls
    rcases hclosed.inside hfunction hplace with hend | ⟨i, hread, hstays⟩
    · have hread : Instruction.read frame.function.chunk.code frame.ip = .pastEnd := by
        unfold Instruction.read
        rw [hend, Chunk.size, Array.getElem?_eq_none (Nat.le_refl _)]
      unfold Machine.step
      rw [hframes]
      dsimp only
      rw [hread]
      split
      · exact fun hmisreading => absurd hmisreading id
      · exact fun _ => ⟨rfl, frame, callers, hframes, hplace, hend⟩
    · rw [step_eq hframes hread]
      split
      · exact fun hmisreading => absurd hmisreading id
      · have hfetched : Fetched S places
            { m with steps := m.steps + 1, frames := { frame with ip := frame.ip + i.size } :: callers }
            { frame with ip := frame.ip + i.size } callers frame.ip i :=
          ⟨h.stack, h.globals, rfl, rfl, hfunction, hstays, hcallers⟩
        have hperform := hfetched.perform hclosed (hhosts m.steps)
        cases hstep : Machine.perform (hosts.during m.steps) _ _ i with
        | next m' =>
          rw [hstep] at hperform
          exact hperform
        | done m' => exact trivial
        | fault m' reason =>
          rw [hstep] at hperform
          exact fun hmisreading => absurd hmisreading hperform

/-! ### Runs -/

/-- A run of a script comes to the state `m'`, from which it takes its next step. -/
def Reaches (hosts : Hosts) (m : Machine) (script : Function) (m' : Machine) : Prop :=
  ∃ m₀ count, m.start script = .running m₀ ∧ advance hosts m₀ count = .running m'

theorem Placed.advance (hclosed : Function.Closed S places) (hhosts : hosts.Keeps S) (h : Placed S places m)
    {fuel : Nat} {m' : Machine} (hrun : advance hosts m fuel = .running m') : Placed S places m' := by
  induction fuel generalizing m with
  | zero =>
    cases hrun
    exact h
  | succ fuel ih =>
    have hstep := h.step hclosed hhosts
    unfold Machine.advance at hrun
    split at hrun
    · rename_i heq
      rw [heq] at hstep
      exact ih hstep hrun
    · cases hrun
    · cases hrun

/-- A run of a function in the set stays at its places. -/
theorem Reaches.placed (hclosed : Function.Closed S places) (hhosts : hosts.Keeps S) (hglobals : m.globals.In S)
    {script : Function} (hscript : S script) {m' : Machine} (h : Reaches hosts m script m') :
    Placed S places m' := by
  obtain ⟨m₀, count, hstart, hrun⟩ := h
  refine Placed.advance hclosed hhosts ?_ hrun
  rw [start_eq] at hstart
  split at hstart
  · cases hstart
  · split at hstart
    · cases hstart
    · cases hstart
      refine ⟨fun v hv => ?_, hglobals, List.cons_ne_nil _ _,
        List.forall_mem_singleton.mpr ⟨hscript, hclosed.entry hscript⟩⟩
      rw [Array.mem_singleton.mp hv]
      intro id f heq
      cases heq
      exact hscript

/-- A run that fails does so in a step from some state. -/
theorem exists_step_of_failed {fuel : Nat} {m' : Machine} {fault : Fault}
    (hrun : advance hosts m fuel = .failed m' fault) :
    ∃ count m₁, advance hosts m count = .running m₁ ∧ step hosts m₁ = .fault m' fault := by
  induction fuel generalizing m with
  | zero => cases hrun
  | succ fuel ih =>
    unfold Machine.advance at hrun
    split at hrun
    · rename_i m₁ hstep
      obtain ⟨count, m₂, hadvance, hfault⟩ := ih hrun
      refine ⟨count + 1, m₂, ?_, hfault⟩
      rw [Machine.advance, hstep]
      exact hadvance
    · cases hrun
    · rename_i heq
      cases hrun
      exact ⟨0, m, rfl, heq⟩

/-- A run that ends with an error was refused at the start, or fails in a step from a state that it reached. -/
theorem exists_step_of_error {script : Function} {fuel : Nat} {outcome : Outcome}
    (hrun : m.run hosts fuel script = some outcome) {error : RuntimeError}
    (herror : outcome.result = .error error) :
    (∃ m', m.start script = .failed m' error.fault) ∨
      ∃ m₁ m₂, Reaches hosts m script m₁ ∧ step hosts m₁ = .fault m₂ error.fault := by
  have hfailed : ∀ {progress : Progress}, progress.outcome? = some outcome →
      ∃ m', progress = .failed m' error.fault := by
    intro progress houtcome
    cases progress with
    | running m => cases houtcome
    | done m =>
      cases houtcome
      cases herror
    | failed m reason =>
      cases houtcome
      cases herror
      exact ⟨m, rfl⟩
  unfold Machine.run at hrun
  split at hrun
  · rename_i m₀ hstart
    obtain ⟨m₂, hadvance⟩ := hfailed hrun
    obtain ⟨count, m₁, hreached, hstep⟩ := exists_step_of_failed hadvance
    exact Or.inr ⟨m₁, m₂, ⟨m₀, count, hstart, hreached⟩, hstep⟩
  · exact Or.inl (hfailed hrun)

/-- A run of a function in the set that ends with a misreading has read at the end of some code. -/
theorem run_placed (hclosed : Function.Closed S places) (hhosts : hosts.Keeps S) (hglobals : m.globals.In S)
    {script : Function} (hscript : S script) {fuel : Nat} {outcome : Outcome}
    (hrun : m.run hosts fuel script = some outcome) {error : RuntimeError}
    (herror : outcome.result = .error error)
    (hmisreading : error.fault.IsMisreading) : error.fault = .pastEnd ∧
      ∃ m₁ m₂, Reaches hosts m script m₁ ∧ step hosts m₁ = .fault m₂ .pastEnd ∧ AtEnd places m₁ := by
  rcases exists_step_of_error hrun herror with ⟨m', hstart⟩ | ⟨m₁, m₂, hreached, hstep⟩
  · rw [start_eq] at hstart
    split at hstart
    · rw [← (Progress.failed.inj hstart).2] at hmisreading
      exact absurd hmisreading id
    · split at hstart
      · rw [← (Progress.failed.inj hstart).2] at hmisreading
        exact absurd hmisreading id
      · cases hstart
  · have hplaced := (hreached.placed hclosed hhosts hglobals hscript).step hclosed hhosts
    rw [hstep] at hplaced
    obtain ⟨hpast, hend⟩ := hplaced hmisreading
    exact ⟨hpast, m₁, m₂, hreached, hpast ▸ hstep, hend⟩

end Machine

end Lox
