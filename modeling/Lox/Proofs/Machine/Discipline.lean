import Lox.Machine.Run
import Lox.Proofs.Flow

/-! # Stack discipline

A family of functions that flow keeps the machine in order: at every step, the innermost call has as many
values on the stack as the depth of its next instruction says, and a caller will have as many when its callee
returns. No instruction then lacks a value or an operand, so only the program itself, the host, the sink and
the limits can stop a run. -/

namespace Lox

/-- The faults that only corrupt code can cause. -/
def Fault.IsCorruption : Fault → Prop
  | .stackUnderflow | .noFrame | .pastEnd | .unknownOpcode _ | .constantRange _ | .nameExpected _
  | .localRange _
  | .loopBeforeStart => True
  | _ => False

/-- A set of functions with their depths: each flows, and it has the functions in its constants. -/
structure Function.Family (S : Function → Prop) (depth : Function → Nat → Option Nat) : Prop where
  flows : ∀ {f : Function}, S f → f.Flows (depth f)
  constant : ∀ {f g : Function}, S f → .function g ∈ f.chunk.constants → S g

/-- A value that is a function is in a set. -/
def Value.In (S : Function → Prop) (value : Value) : Prop := ∀ id f, value = .function id f → S f

/-- The routines of the host give only functions in a set, if they are given no others. -/
def Host.Keeps (S : Function → Prop) (host : Host) : Prop :=
  ∀ routine arguments value, (∀ argument ∈ arguments, argument.In S) → host routine arguments = .ok value →
    value.In S

/-- The routines of the host make no functions: one that they return is among their arguments. -/
def Host.Faithful (host : Host) : Prop :=
  ∀ routine arguments value, host routine arguments = .ok value → ∀ id f, value = .function id f →
    value ∈ arguments

theorem Host.Faithful.keeps {host : Host} (h : host.Faithful) (S : Function → Prop) : host.Keeps S := by
  intro routine arguments value harguments hvalue id f heq
  exact harguments value (h routine arguments value hvalue id f heq) id f heq

/-- At every step the routines give only functions in a set, if they are given no others. -/
def Hosts.Keeps (S : Function → Prop) (hosts : Hosts) : Prop := ∀ step, (hosts.during step).Keeps S

/-- At no step do the routines make functions. -/
def Hosts.Faithful (hosts : Hosts) : Prop := ∀ step, (hosts.during step).Faithful

theorem Hosts.Faithful.keeps {hosts : Hosts} (h : hosts.Faithful) (S : Function → Prop) : hosts.Keeps S :=
  fun step => (h step).keeps S

theorem Host.Faithful.always {host : Host} (h : host.Faithful) : host.always.Faithful := fun _ => h

theorem Host.faithful_standard (now : Float) : (Host.standard now).Faithful := by
  intro routine arguments value hvalue id f heq
  unfold Host.standard at hvalue
  split at hvalue
  · cases hvalue
    cases heq
  · cases hvalue

theorem Hosts.faithful_clock (time : Nat → Float) : (Hosts.clock time).Faithful :=
  fun step => Host.faithful_standard (time step)

namespace Globals

/-- The functions among the globals are in a set. -/
def In (S : Function → Prop) (globals : Globals) : Prop := ∀ entry ∈ globals.entries, entry.2.In S

variable {S : Function → Prop} {globals : Globals}

theorem In.get? (h : globals.In S) {name : String} {value : Value} (hvalue : globals.get? name = some value) :
    value.In S := by
  unfold Globals.get? at hvalue
  obtain ⟨before, after, heq, -⟩ := List.lookup_eq_some_iff.mp hvalue
  exact h (name, value) (by rw [heq]; simp)

theorem In.overwrite (h : globals.In S) (name : String) {value : Value} (hvalue : value.In S) :
    (globals.overwrite name value).In S := by
  intro entry hentry
  obtain ⟨old, hold, rfl⟩ := List.mem_map.mp hentry
  split
  · exact hvalue
  · exact h old hold

theorem In.define (h : globals.In S) (name : String) {value : Value} (hvalue : value.In S) :
    (globals.define name value).In S := by
  unfold Globals.define
  split
  · exact h.overwrite name hvalue
  · intro entry hentry
    rcases List.mem_append.mp hentry with hentry | hentry
    · exact h entry hentry
    · rw [List.mem_singleton.mp hentry]
      exact hvalue

theorem In.assign? (h : globals.In S) {name : String} {value : Value} (hvalue : value.In S) {globals' : Globals}
    (hassign : globals.assign? name value = some globals') : globals'.In S := by
  unfold Globals.assign? at hassign
  split at hassign
  · cases hassign
    exact h.overwrite name hvalue
  · cases hassign

end Globals

namespace Machine

variable {S : Function → Prop} {depth : Function → Nat → Option Nat} {host : Host} {hosts : Hosts} {m : Machine}

/-- Calls with their values up to `top`: the innermost has as many as the depth of its next instruction, and
    each caller as many once its callee has left its result. -/
def Stacked (S : Function → Prop) (depth : Function → Nat → Option Nat) : (top : Nat) → List Frame → Prop
  | _, [] => True
  | top, frame :: callers =>
    (S frame.function ∧ ∃ height, depth frame.function frame.ip = some height ∧ top = frame.slots + height) ∧
      Stacked S depth (frame.slots + 1) callers

/-- A running machine whose functions are in a family and whose stack has the height that the
    active calls expect. -/
structure Disciplined (S : Function → Prop) (depth : Function → Nat → Option Nat) (m : Machine) : Prop where
  stack : ∀ value ∈ m.stack, value.In S
  globals : m.globals.In S
  running : m.frames ≠ []
  stacked : Stacked S depth m.stack.size m.frames

/-- What can be said of a step. -/
def Step.Satisfies (next done : Machine → Prop) (fault : Machine → Fault → Prop) : Step → Prop
  | .next m => next m
  | .done m => done m
  | .fault m reason => fault m reason

/-- A step of a disciplined machine: it stays so, and a fault is not one of corrupt code. -/
abbrev Step.Sound (S : Function → Prop) (depth : Function → Nat → Option Nat) (s : Step) : Prop :=
  s.Satisfies (Disciplined S depth) (fun m => m.globals.In S) fun m reason =>
    m.globals.In S ∧ ¬reason.IsCorruption

/-- A step of a call whose next instruction is known. -/
theorem step_eq {frame : Frame} {callers : List Frame} {i : Instruction} (hframes : m.frames = frame :: callers)
    (hread : Instruction.read frame.function.chunk.code frame.ip = .instruction i) : step hosts m =
    match m.limits.maxSteps.filter (· ≤ m.steps) with
    | some limit => .fault m (.stepLimit limit)
    | none =>
      perform (hosts.during m.steps)
        { m with steps := m.steps + 1, frames := { frame with ip := frame.ip + i.size } :: callers }
        { frame with ip := frame.ip + i.size } i := by
  unfold step
  rw [hframes]
  dsimp only
  rw [hread]
  rfl

theorem globals_new (S : Function → Prop) (limits : Limits) (sink : Sink) :
    (Machine.new limits sink).globals.In S := by
  intro entry hentry
  rw [List.mem_singleton.mp hentry]
  intro id f heq
  cases heq

/-! ### The stack -/

theorem exists_peek (m : Machine) (distance : Nat) (h : distance < m.stack.size) :
    ∃ value ∈ m.stack, m.peek? distance = some value := by
  have hlt : m.stack.size - 1 - distance < m.stack.size := by omega
  refine ⟨m.stack[m.stack.size - 1 - distance], Array.getElem_mem hlt, ?_⟩
  rw [peek?, if_pos h]
  exact Array.getElem?_eq_getElem hlt

theorem mem_of_mem_pop {stack : Array Value} {value : Value} (h : value ∈ stack.pop) : value ∈ stack := by
  rw [← Array.mem_toList_iff, Array.toList_pop] at h
  exact Array.mem_toList_iff.mp (List.dropLast_subset _ h)

theorem mem_of_mem_shrink {stack : Array Value} {value : Value} {size : Nat} (h : value ∈ stack.shrink size) :
    value ∈ stack := by
  rw [← Array.mem_toList_iff, Array.toList_shrink] at h
  exact Array.mem_toList_iff.mp (List.mem_of_mem_take h)

theorem mem_of_mem_extract {stack : Array Value} {value : Value} {first last : Nat}
    (h : value ∈ stack.extract first last) :
    value ∈ stack := by
  obtain ⟨k, hk, rfl⟩ := Array.mem_extract_iff_getElem.mp h
  exact Array.getElem_mem _

theorem in_push {stack : Array Value} {value : Value} (h : ∀ v ∈ stack, v.In S) (hvalue : value.In S) :
    ∀ v ∈ stack.push value, v.In S := by
  intro v hv
  rcases Array.mem_push.mp hv with hv | rfl
  · exact h v hv
  · exact hvalue

/-! ### Instructions -/

section

variable {frame : Frame} {callers : List Frame} {i : Instruction} {offset height : Nat}

/-- A machine that has read an instruction of its innermost call, before it performs it. -/
structure Reads (S : Function → Prop) (depth : Function → Nat → Option Nat) (m : Machine) (frame : Frame)
    (callers : List Frame) (offset height : Nat) (i : Instruction) : Prop where
  stack : ∀ value ∈ m.stack, value.In S
  globals : m.globals.In S
  frames : m.frames = frame :: callers
  ip : frame.ip = offset + i.size
  size : m.stack.size = frame.slots + height
  function : S frame.function
  flows : i.Flows frame.function.chunk (depth frame.function) offset height
  callers : Stacked S depth (frame.slots + 1) callers

/-- The innermost call goes on at a place to which its instruction leads. -/
theorem Reads.goOn (h : Reads S depth m frame callers offset height i) {m' : Machine} (place : Nat)
    (hframes : m'.frames = { frame with ip := place } :: callers) (hplace : place ∈ i.leads offset)
    (hsize : m'.stack.size = frame.slots + (height - i.takes + i.gives))
    (hstack : ∀ value ∈ m'.stack, value.In S) (hglobals : m'.globals.In S) : Disciplined S depth m' where
  stack := hstack
  globals := hglobals
  running := by
    rw [hframes]
    exact List.cons_ne_nil _ _
  stacked := by
    rw [hframes]
    exact ⟨⟨h.function, _, h.flows.leads place hplace, hsize⟩, h.callers⟩

/-- The innermost call goes on with its next instruction. -/
theorem Reads.next (h : Reads S depth m frame callers offset height i)
    (hleads : i.leads offset = [offset + i.size]) {m' : Machine} (hframes : m'.frames = m.frames)
    (hsize : m'.stack.size = frame.slots + (height - i.takes + i.gives))
    (hstack : ∀ value ∈ m'.stack, value.In S) (hglobals : m'.globals.In S) : Disciplined S depth m' := by
  refine h.goOn frame.ip ?_ ?_ hsize hstack hglobals
  · rw [hframes, h.frames]
  · rw [hleads, h.ip]
    exact List.mem_singleton_self _

theorem Reads.push (h : Reads S depth m frame callers offset height i)
    (hleads : i.leads offset = [offset + i.size])
    (htakes : i.takes = 0) (hgives : i.gives = 1) {value : Value} (hvalue : value.In S) :
    Disciplined S depth (m.push value) := by
  refine h.next hleads rfl ?_ (in_push h.stack hvalue) h.globals
  rw [Machine.push, Array.size_push, h.size, htakes, hgives]
  rfl

/-- An instruction that drops the top value. -/
theorem Reads.drop (h : Reads S depth m frame callers offset height i)
    (hleads : i.leads offset = [offset + i.size])
    (htakes : i.takes = 1) (hgives : i.gives = 0) {m' : Machine} (hframes : m'.frames = m.frames)
    (hstack : m'.stack = m.stack.pop) (hglobals : m'.globals.In S) : Disciplined S depth m' := by
  have hpos := h.flows.takes
  refine h.next hleads hframes ?_ (fun v hv => h.stack v (mem_of_mem_pop (hstack ▸ hv))) hglobals
  rw [hstack, Array.size_pop, h.size]
  omega

/-- An instruction that leaves as many values as it takes. -/
theorem Reads.keep (h : Reads S depth m frame callers offset height i)
    (hleads : i.leads offset = [offset + i.size])
    (hgives : i.gives = i.takes) {m' : Machine} (hframes : m'.frames = m.frames)
    (hsize : m'.stack.size = m.stack.size)
    (hstack : ∀ value ∈ m'.stack, value.In S) (hglobals : m'.globals.In S) : Disciplined S depth m' := by
  have hpos := h.flows.takes
  refine h.next hleads hframes ?_ hstack hglobals
  rw [hsize, h.size]
  omega

theorem Reads.peek (h : Reads S depth m frame callers offset height i) (distance : Nat)
    (hdistance : distance < i.takes) :
    ∃ value, value.In S ∧ m.peek? distance = some value := by
  have htakes := h.flows.takes
  obtain ⟨value, hmem, hpeek⟩ := exists_peek m distance (by rw [h.size]; omega)
  exact ⟨value, h.stack value hmem, hpeek⟩

theorem Reads.unary (h : Reads S depth m frame callers offset height i)
    (hleads : i.leads offset = [offset + i.size])
    (htakes : i.takes = 1) (hgives : i.gives = 1) {f : Value → Except Fault Value}
    (hok : ∀ a value, f a = .ok value → value.In S)
    (herror : ∀ a fault, f a = .error fault → ¬fault.IsCorruption) :
    (m.unary f).Sound S depth := by
  obtain ⟨a, -, hpeek⟩ := h.peek 0 (by omega)
  have hpos := h.flows.takes
  unfold Machine.unary
  rw [hpeek]
  dsimp only
  cases hf : f a with
  | ok value =>
    refine h.next hleads rfl ?_ (in_push (fun v hv => h.stack v (mem_of_mem_pop hv)) (hok a value hf)) h.globals
    rw [Array.size_push, Array.size_pop, h.size]
    omega
  | error fault => exact ⟨h.globals, herror a fault hf⟩

theorem Reads.binary (h : Reads S depth m frame callers offset height i)
    (hleads : i.leads offset = [offset + i.size])
    (htakes : i.takes = 2) (hgives : i.gives = 1) {f : Value → Value → Except Fault Value}
    (hok : ∀ a b value, f a b = .ok value → value.In S)
    (herror : ∀ a b fault, f a b = .error fault → ¬fault.IsCorruption) :
    (m.binary f).Sound S depth := by
  obtain ⟨a, -, hpeek⟩ := h.peek 1 (by omega)
  obtain ⟨b, -, hpeek'⟩ := h.peek 0 (by omega)
  have hpos := h.flows.takes
  unfold Machine.binary
  rw [hpeek, hpeek']
  dsimp only
  cases hf : f a b with
  | ok value =>
    refine h.next hleads rfl ?_ (in_push (fun v hv => h.stack v (mem_of_mem_pop (mem_of_mem_pop hv)))
        (hok a b value hf))
      h.globals
    rw [Array.size_push, Array.size_pop, Array.size_pop, h.size]
    omega
  | error fault => exact ⟨h.globals, herror a b fault hf⟩

theorem numeric_ok {f : Float → Float → Value} (hf : ∀ x y, (f x y).In S) (a b value : Value)
    (h : numeric f a b = .ok value) : value.In S := by
  unfold numeric at h
  split at h
  · cases h
    exact hf _ _
  · cases h

theorem numeric_error {f : Float → Float → Value} (a b : Value) (fault : Fault)
    (h : numeric f a b = .error fault) :
    ¬fault.IsCorruption := by
  unfold numeric at h
  split at h
  · cases h
  · cases h
    exact id

theorem add_ok (a b value : Value) (h : add a b = .ok value) : value.In S := by
  unfold add at h
  split at h <;> cases h <;> exact fun _ _ heq => by cases heq

theorem add_error (a b : Value) (fault : Fault) (h : add a b = .error fault) : ¬fault.IsCorruption := by
  unfold add at h
  split at h <;> cases h
  exact id

theorem negate_ok (a value : Value) (h : negate a = .ok value) : value.In S := by
  unfold negate at h
  split at h <;> cases h
  exact fun _ _ heq => by cases heq

theorem negate_error (a : Value) (fault : Fault) (h : negate a = .error fault) : ¬fault.IsCorruption := by
  unfold negate at h
  split at h <;> cases h
  exact id

theorem Reads.name {index : UInt8} {name : String}
    (hname : frame.function.chunk.constant? index = some (.string name)) :
    frame.name index = .ok name := by
  unfold Frame.name
  rw [hname]

/-- A constant of a function in the family is in it. -/
theorem Reads.constant (hfamily : Function.Family S depth) (h : Reads S depth m frame callers offset height i)
    {index : UInt8} {constant : Constant} (hconstant : frame.function.chunk.constant? index = some constant) :
    ∃ value, value.In S ∧ frame.constant? index = some value := by
  refine ⟨constant.load (frame.id.child index.toNat), ?_, ?_⟩
  · intro id f heq
    cases constant with
    | function g =>
      cases heq
      exact hfamily.constant h.function (List.mem_of_getElem? hconstant)
    | nil | bool | number | string | native => cases heq
  · rw [Frame.constant?, hconstant]
    rfl

/-! ### Calls -/

theorem Reads.callFunction (hfamily : Function.Family S depth) {count : UInt8}
    (h : Reads S depth m frame callers offset height (.call count)) {id : ObjectId} {f : Function} (hf : S f) :
    (m.callFunction id f count).Sound S depth := by
  have htakes : count.toNat + 1 ≤ height := h.flows.takes
  unfold Machine.callFunction
  split
  · exact ⟨h.globals, fun hfault => hfault⟩
  · rename_i harity
    have harity' : count = f.arity := Classical.not_not.mp harity
    split
    · exact ⟨h.globals, fun hfault => hfault⟩
    · split <;> rename_i hsize
      · exact absurd hsize (by rw [h.size]; omega)
      · refine ⟨h.stack, h.globals, List.cons_ne_nil _ _,
          ⟨hf, f.arity.toNat + 1, (hfamily.flows hf).entry, ?_⟩, ?_⟩
        · dsimp only
          rw [← harity']
          omega
        · dsimp only
          rw [h.frames]
          have hnext := h.flows.leads (offset + 2) (List.mem_singleton_self _)
          refine ⟨⟨h.function, height - (count.toNat + 1) + 1, ?_, ?_⟩, h.callers⟩
          · rw [h.ip]
            exact hnext
          · rw [h.size]
            omega

theorem Reads.callNative (hhost : host.Keeps S) {count : UInt8}
    (h : Reads S depth m frame callers offset height (.call count)) (native : Native) :
    (callNative host m native count).Sound S depth := by
  have htakes : count.toNat + 1 ≤ height := h.flows.takes
  unfold Machine.callNative
  split <;> rename_i hsize
  · exact absurd hsize (by rw [h.size]; omega)
  · dsimp only
    split
    · rename_i value hvalue
      have hin : value.In S := hhost _ _ value (fun v hv => h.stack v (mem_of_mem_extract hv)) hvalue
      refine h.next rfl rfl ?_ (in_push (fun v hv => h.stack v (mem_of_mem_shrink hv)) hin) h.globals
      rw [Array.size_push, Array.size_shrink, h.size]
      show _ = frame.slots + (height - (count.toNat + 1) + 1)
      omega
    · exact ⟨h.globals, fun hfault => hfault⟩

theorem Reads.call (hfamily : Function.Family S depth) (hhost : host.Keeps S) {count : UInt8}
    (h : Reads S depth m frame callers offset height (.call count)) : (call host m count).Sound S depth := by
  obtain ⟨value, hvalue, hpeek⟩ := h.peek count.toNat (Nat.lt_succ_self _)
  unfold Machine.call
  rw [hpeek]
  cases value with
  | function id f => exact h.callFunction hfamily (hvalue id f rfl)
  | native id native => exact h.callNative hhost native
  | nil | bool | number | string => exact ⟨h.globals, fun hfault => hfault⟩

theorem Reads.leave (h : Reads S depth m frame callers offset height .ret) : (m.leave).Sound S depth := by
  have htakes : 1 ≤ height := h.flows.takes
  obtain ⟨result, hresult, hpeek⟩ := h.peek 0 (Nat.lt_succ_self _)
  have hin : ∀ v ∈ (m.stack.pop.shrink frame.slots).push result, v.In S :=
    in_push (fun v hv => h.stack v (mem_of_mem_pop (mem_of_mem_shrink hv))) hresult
  have hcallers := h.callers
  unfold Machine.leave
  rw [hpeek, h.frames]
  cases callers with
  | nil => exact h.globals
  | cons caller callers =>
    refine ⟨hin, h.globals, List.cons_ne_nil _ _, ?_⟩
    have hsize : ((m.stack.pop.shrink frame.slots).push result).size = frame.slots + 1 := by
      rw [Array.size_push, Array.size_shrink, Array.size_pop, h.size]
      omega
    rw [hsize]
    exact hcallers

/-! ### Steps and runs -/

theorem Reads.perform (hfamily : Function.Family S depth) (hhost : host.Keeps S)
    (h : Reads S depth m frame callers offset height i) : (perform host m frame i).Sound S depth := by
  have htakes := h.flows.takes
  have hoperands := h.flows.operands
  cases i with
  | constant index =>
    obtain ⟨constant, hconstant⟩ := hoperands
    obtain ⟨value, hvalue, hload⟩ := h.constant hfamily hconstant
    rw [Machine.perform, hload]
    exact h.push rfl rfl rfl hvalue
  | nil | trueValue | falseValue => exact h.push rfl rfl rfl fun _ _ heq => by cases heq
  | pop =>
    rw [Machine.perform]
    split <;> rename_i hempty
    · have hzero : m.stack.size = 0 := by simpa using hempty
      exact absurd (h.size.symm.trans hzero) (by simp only [Instruction.takes] at htakes; omega)
    · exact h.drop rfl rfl rfl rfl rfl h.globals
  | getLocal slot =>
    have hlt : frame.slots + slot.toNat < m.stack.size := by
      rw [h.size]
      exact Nat.add_lt_add_left hoperands _
    rw [Machine.perform, Array.getElem?_eq_getElem hlt]
    exact h.push rfl rfl rfl (h.stack _ (Array.getElem_mem hlt))
  | setLocal slot =>
    have hlt : frame.slots + slot.toNat < m.stack.size := by
      rw [h.size]
      exact Nat.add_lt_add_left hoperands _
    obtain ⟨value, hvalue, hpeek⟩ := h.peek 0 (Nat.lt_succ_self _)
    rw [Machine.perform, if_pos hlt, hpeek]
    refine h.keep rfl rfl rfl Array.size_setIfInBounds (fun v hv => ?_) h.globals
    rcases Array.mem_or_eq_of_mem_setIfInBounds hv with hv | rfl
    · exact h.stack v hv
    · exact hvalue
  | getGlobal index =>
    obtain ⟨name, hname⟩ := hoperands
    rw [Machine.perform, Reads.name hname]
    dsimp only
    split
    · rename_i value hvalue
      exact h.push rfl rfl rfl (h.globals.get? hvalue)
    · exact ⟨h.globals, fun hfault => hfault⟩
  | defineGlobal index =>
    obtain ⟨name, hname⟩ := hoperands
    obtain ⟨value, hvalue, hpeek⟩ := h.peek 0 (Nat.lt_succ_self _)
    rw [Machine.perform, Reads.name hname, hpeek]
    exact h.drop rfl rfl rfl rfl rfl (h.globals.define name hvalue)
  | setGlobal index =>
    obtain ⟨name, hname⟩ := hoperands
    obtain ⟨value, hvalue, hpeek⟩ := h.peek 0 (Nat.lt_succ_self _)
    rw [Machine.perform, Reads.name hname, hpeek]
    dsimp only
    split
    · rename_i globals hassign
      exact h.keep rfl rfl rfl rfl h.stack (h.globals.assign? hvalue hassign)
    · exact ⟨h.globals, fun hfault => hfault⟩
  | equal =>
    rw [Machine.perform]
    refine h.binary rfl rfl rfl (fun a b value heq => ?_) fun a b fault heq => ?_
    · cases heq
      exact fun _ _ heq => by cases heq
    · cases heq
  | greater | less | subtract | multiply | divide =>
    exact h.binary rfl rfl rfl (numeric_ok fun _ _ _ _ heq => by cases heq) numeric_error
  | add => exact h.binary rfl rfl rfl add_ok add_error
  | logicalNot =>
    rw [Machine.perform]
    refine h.unary rfl rfl rfl (fun a value heq => ?_) fun a fault heq => ?_
    · cases heq
      exact fun _ _ heq => by cases heq
    · cases heq
  | negate => exact h.unary rfl rfl rfl negate_ok negate_error
  | print =>
    obtain ⟨value, hvalue, hpeek⟩ := h.peek 0 (Nat.lt_succ_self _)
    rw [Machine.perform, hpeek]
    dsimp only
    split
    · exact h.drop rfl rfl rfl rfl rfl h.globals
    · exact ⟨h.globals, fun hfault => hfault⟩
  | jump distance =>
    refine h.goOn (frame.ip + distance.toNat) ?_ ?_ ?_ h.stack h.globals
    · rw [goTo, h.frames]
      rfl
    · rw [h.ip]
      exact List.mem_singleton_self _
    · exact h.size
  | jumpIfFalse distance =>
    obtain ⟨value, hvalue, hpeek⟩ := h.peek 0 (Nat.lt_succ_self _)
    have hsize : m.stack.size = frame.slots + (height - 1 + 1) := by
      simp only [Instruction.takes] at htakes
      rw [h.size]
      omega
    rw [Machine.perform, hpeek]
    dsimp only
    split
    · refine h.goOn (frame.ip + distance.toNat) ?_ ?_ hsize h.stack h.globals
      · rw [goTo, h.frames]
        rfl
      · rw [h.ip]
        exact List.mem_cons_of_mem _ (List.mem_singleton_self _)
    · refine h.goOn frame.ip h.frames ?_ hsize h.stack h.globals
      rw [h.ip]
      exact List.mem_cons_self
  | loop distance =>
    have hle : distance.toNat ≤ frame.ip := by
      rw [h.ip]
      exact hoperands.1
    rw [Machine.perform, if_pos hle]
    refine h.goOn (frame.ip - distance.toNat) ?_ ?_ h.size h.stack h.globals
    · rw [goTo, h.frames]
      rfl
    · rw [h.ip]
      exact List.mem_singleton_self _
  | call count => exact h.call hfamily hhost
  | ret => exact h.leave

end

/-- A step of a disciplined machine leaves it so, or ends the run without a fault of corrupt code. -/
theorem Disciplined.step (hfamily : Function.Family S depth) (hhosts : hosts.Keeps S)
    (h : Disciplined S depth m) :
    (step hosts m).Sound S depth := by
  have hstacked := h.stacked
  cases hframes : m.frames with
  | nil => exact absurd hframes h.running
  | cons frame callers =>
    rw [hframes] at hstacked
    obtain ⟨⟨hfunction, height, hdepth, hsize⟩, hcallers⟩ := hstacked
    obtain ⟨i, hread, hflows⟩ := (hfamily.flows hfunction).inside hdepth
    rw [step_eq hframes hread]
    split
    · exact ⟨h.globals, fun hfault => hfault⟩
    · exact Reads.perform hfamily (hhosts m.steps) ⟨h.stack, h.globals, rfl, rfl, hsize, hfunction, hflows,
        hcallers⟩

/-- What can be said of a run of a disciplined machine. -/
def Progress.Sound (S : Function → Prop) (depth : Function → Nat → Option Nat) : Progress → Prop
  | .running m => Disciplined S depth m
  | .done m => m.globals.In S
  | .failed m reason => m.globals.In S ∧ ¬reason.IsCorruption

theorem Disciplined.advance (hfamily : Function.Family S depth) (hhosts : hosts.Keeps S)
    (h : Disciplined S depth m) (fuel : Nat) : (advance hosts m fuel).Sound S depth := by
  induction fuel generalizing m with
  | zero => exact h
  | succ fuel ih =>
    have hstep := h.step hfamily hhosts
    unfold Machine.advance
    split <;> rename_i heq <;> rw [heq] at hstep
    · exact ih hstep
    · exact hstep
    · exact hstep

/-- The machine before the first call of a run: only the script is on the stack. -/
def loaded (m : Machine) (script : Function) : Machine :=
  { m.reset with nextOrigin := m.nextOrigin + 1, stack := #[.function ⟨m.nextOrigin, []⟩ script] }

theorem start_eq (m : Machine) (script : Function) : m.start script =
    if script.arity ≠ 0 then .failed (m.loaded script) (.arity script.arity 0)
    else if m.limits.maxFrames = 0 then .failed (m.loaded script) .stackOverflow
    else .running { m.loaded script with frames := [⟨⟨m.nextOrigin, []⟩, script, 0, 0⟩] } := by
  have hloaded : { m.reset with nextOrigin := m.nextOrigin + 1 }.push (.function ⟨m.nextOrigin, []⟩ script) =
      m.loaded script := rfl
  unfold Machine.start Machine.callFunction
  dsimp only
  rw [hloaded]
  by_cases harity : script.arity = 0
  · rw [if_neg (not_not_intro harity.symm), if_neg (not_not_intro harity)]
    by_cases hframes : m.limits.maxFrames = 0
    · have hframes' : (m.loaded script).limits.maxFrames ≤ (m.loaded script).frames.length :=
        Nat.le_of_eq hframes
      rw [if_pos hframes', if_pos hframes]
    · have hframes' : ¬(m.loaded script).limits.maxFrames ≤ (m.loaded script).frames.length :=
        fun hle => hframes (Nat.le_zero.mp hle)
      have hsize : ¬(m.loaded script).stack.size < (0 : UInt8).toNat + 1 := Nat.lt_irrefl 1
      rw [if_neg hframes', if_neg hframes, if_neg hsize]
      rfl
  · rw [if_pos (Ne.symm harity), if_pos harity]

/-- A run of a function in the family starts disciplined. -/
theorem start_sound (hfamily : Function.Family S depth) (hglobals : m.globals.In S) {script : Function}
    (hscript : S script) :
    (m.start script).Sound S depth := by
  rw [start_eq]
  split
  · exact ⟨hglobals, fun hfault => hfault⟩
  · rename_i harity
    split
    · exact ⟨hglobals, fun hfault => hfault⟩
    · refine ⟨fun v hv => ?_, hglobals, List.cons_ne_nil _ _, ⟨hscript, 1, ?_, rfl⟩, trivial⟩
      · rw [Array.mem_singleton.mp hv]
        intro id f heq
        cases heq
        exact hscript
      · rw [(hfamily.flows hscript).entry, Classical.not_not.mp harity]
        rfl

end Machine

end Lox
