import Lox.Proofs.Machine.Trace
import Lox.Proofs.Sinks

/-! # Runs of any code

What a run of a function keeps whatever the function is, verified or not. The calls stay within their limit,
the lowest one has its values at the bottom of the stack, and so the stack is empty when it returns. The stack
is read and written only through indices that were looked at before. And a run begins by emptying the machine,
so nothing that an earlier one left there plays a part. -/

namespace Lox

/-- No jump goes further than a word can say. -/
theorem Instruction.le_of_leads {i : Instruction} {offset place : Nat} (h : place ∈ i.leads offset) :
    place ≤ offset + i.size + 65535 := by
  cases i with
  | ret => cases h
  | jump distance =>
    rw [List.mem_singleton.mp h]
    exact Nat.add_le_add_left (Nat.le_of_lt_succ distance.toNat_lt) _
  | jumpIfFalse distance =>
    rcases List.mem_cons.mp h with rfl | h
    · exact Nat.le_add_right _ _
    · rw [List.mem_singleton.mp h]
      exact Nat.add_le_add_left (Nat.le_of_lt_succ distance.toNat_lt) _
  | loop distance =>
    rw [List.mem_singleton.mp h]
    omega
  | _ =>
    rw [List.mem_singleton.mp h]
    exact Nat.le_add_right _ _

namespace Machine

variable {host : Host} {hosts : Hosts} {m m' : Machine} {frame : Frame} {callers : List Frame} {i : Instruction}
  {fuel room reach : Nat}

/-! ### Direct accesses to the stack

The machine once more, with every direct access to the stack spelled out: it is `none` as soon as
one is out of range. -/

/-- The index on the stack of a local of the innermost call. -/
def localIndex (m : Machine) (frame : Frame) (slot : UInt8) : Except Fault Nat :=
  let index := frame.slots + slot.toNat
  if m.stack.size ≤ index then .error (.localRange slot) else .ok index

/-- Overwrites the value at an index of the stack; `none` if the index is out of range. -/
def setAt? (m : Machine) (index : Nat) (value : Value) : Option Machine :=
  if index < m.stack.size then some { m with stack := m.stack.setIfInBounds index value } else none

/-- The values of the stack from an index on; `none` if the index is out of range. -/
def valuesFrom? (m : Machine) (index : Nat) : Option (Array Value) :=
  if index ≤ m.stack.size then some (m.stack.extract index m.stack.size) else none

/-- Calls a routine of the host; `none` if the place of its first argument is out of range. -/
def callNative? (host : Host) (m : Machine) (native : Native) (count : UInt8) : Option Step :=
  if m.stack.size < count.toNat then some (.fault m .stackUnderflow)
  else do
    let first := m.stack.size - count.toNat
    match host native.routine (← m.valuesFrom? first) with
    | .ok value => some (.next { m with stack := (m.stack.shrink (first - 1)).push value })
    | .error complaint => some (.fault m (.native complaint))

/-- Calls the value below the arguments; `none` if an access is out of range. -/
def call? (host : Host) (m : Machine) (count : UInt8) : Option Step :=
  match m.peek? count.toNat with
  | some (.native _ native) => callNative? host m native count
  | _ => some (call host m count)

/-- Performs an instruction; `none` if an access is out of range. -/
def perform? (host : Host) (m : Machine) (frame : Frame) : Instruction → Option Step
  | .getLocal slot =>
    match m.localIndex frame slot with
    | .error fault => some (.fault m fault)
    | .ok index => do
      let value ← m.stack[index]?
      some (.next (m.push value))
  | .setLocal slot =>
    match m.localIndex frame slot with
    | .error fault => some (.fault m fault)
    | .ok index =>
      match m.peek? 0 with
      | none => some (.fault m .stackUnderflow)
      | some value => (m.setAt? index value).map .next
  | .call count => call? host m count
  | i => some (perform host m frame i)

/-- One step; `none` if an access is out of range. -/
def step? (hosts : Hosts) (m : Machine) : Option Step :=
  match m.limits.maxSteps.filter (· ≤ m.steps), m.frames with
  | none, frame :: callers =>
    match Instruction.read frame.function.chunk.code frame.ip with
    | .instruction i =>
      let frame := { frame with ip := frame.ip + i.size }
      perform? (hosts.during m.steps) { m with steps := m.steps + 1, frames := frame :: callers } frame i
    | _ => some (step hosts m)
  | _, _ => some (step hosts m)

/-- Goes on for at most `fuel` steps; `none` if an access is out of range. -/
def advance? (hosts : Hosts) (m : Machine) : (fuel : Nat) → Option Progress
  | 0 => some (.running m)
  | fuel + 1 => do
    match ← step? hosts m with
    | .next m => advance? hosts m fuel
    | .done m => some (.done m)
    | .fault m fault => some (.failed m fault)

/-- Runs a script; `none` if an access is out of range. -/
def run? (hosts : Hosts) (fuel : Nat) (m : Machine) (script : Function) : Option (Option Outcome) :=
  match m.start script with
  | .running m => (advance? hosts m fuel).map Progress.outcome?
  | ended => some ended.outcome?

theorem callNative?_eq (host : Host) (m : Machine) (native : Native) (count : UInt8) :
    callNative? host m native count = some (callNative host m native count) := by
  unfold callNative? callNative
  split
  · rfl
  · dsimp only
    have hvalues : m.valuesFrom? (m.stack.size - count.toNat) =
        some (m.stack.extract (m.stack.size - count.toNat) m.stack.size) := if_pos (Nat.sub_le _ _)
    rw [hvalues]
    dsimp only [Option.bind_eq_bind, Option.bind_some]
    cases host native.routine (m.stack.extract (m.stack.size - count.toNat)) <;> rfl

theorem call?_eq (host : Host) (m : Machine) (count : UInt8) :
    call? host m count = some (call host m count) := by
  unfold call?
  split
  · rename_i id native hpeek
    rw [callNative?_eq, call, hpeek]
  · rfl

/-- An index that was looked at is in range. -/
theorem perform?_eq (host : Host) (m : Machine) (frame : Frame) (i : Instruction) :
    perform? host m frame i = some (perform host m frame i) := by
  cases i with
  | getLocal slot =>
    rw [perform?, perform, localIndex]
    by_cases hrange : m.stack.size ≤ frame.slots + slot.toNat
    · rw [if_pos hrange, Array.getElem?_eq_none hrange]
    · rw [if_neg hrange]
      dsimp only
      rw [Array.getElem?_eq_getElem (Nat.lt_of_not_le hrange)]
      rfl
  | setLocal slot =>
    rw [perform?, perform, localIndex]
    by_cases hrange : m.stack.size ≤ frame.slots + slot.toNat
    · rw [if_pos hrange, if_neg (Nat.not_lt_of_le hrange)]
    · rw [if_neg hrange, if_pos (Nat.lt_of_not_le hrange)]
      dsimp only
      cases m.peek? 0 with
      | none => rfl
      | some value =>
        dsimp only
        rw [setAt?, if_pos (Nat.lt_of_not_le hrange)]
        rfl
  | call count => exact call?_eq host m count
  | _ => rfl

theorem step?_eq (hosts : Hosts) (m : Machine) : step? hosts m = some (step hosts m) := by
  unfold step?
  split
  · rename_i hlimit hframes
    split
    · rename_i i hread
      rw [step_eq hframes hread, hlimit]
      exact perform?_eq ..
    · rfl
  · rfl

theorem advance?_eq (hosts : Hosts) (m : Machine) (fuel : Nat) :
    advance? hosts m fuel = some (advance hosts m fuel) := by
  induction fuel generalizing m with
  | zero => rfl
  | succ fuel ih =>
    rw [advance?, advance, step?_eq]
    dsimp only [Option.bind_eq_bind, Option.bind_some]
    cases step hosts m with
    | next m' => exact ih m'
    | done m' | fault m' fault => rfl

theorem run?_eq (hosts : Hosts) (fuel : Nat) (m : Machine) (script : Function) :
    run? hosts fuel m script = some (run hosts fuel m script) := by
  unfold run? run
  cases m.start script with
  | running m' =>
    dsimp only
    rw [advance?_eq, Option.map_some]
  | done m' | failed m' fault => rfl

/-! ### Calls -/

theorem unary_ne_done {f : Value → Except Fault Value} : m.unary f ≠ .done m' := by
  intro h
  unfold unary at h
  split at h
  · cases h
  · split at h <;> cases h

theorem binary_ne_done {f : Value → Value → Except Fault Value} : m.binary f ≠ .done m' := by
  intro h
  unfold binary at h
  split at h
  · split at h <;> cases h
  · cases h

theorem call_ne_done {count : UInt8} : call host m count ≠ .done m' := by
  intro h
  unfold call at h
  split at h
  · cases h
  · unfold callFunction at h
    split at h
    · cases h
    · split at h
      · cases h
      · split at h <;> cases h
  · unfold callNative at h
    split at h
    · cases h
    · dsimp only at h
      split at h <;> cases h
  · cases h

/-- Only a return can end a run. -/
theorem perform_of_done (h : perform host m frame i = .done m') : m.leave = .done m' := by
  cases i with
  | ret => exact h
  | nil | trueValue | falseValue | jump => cases h
  | equal | greater | less | add | subtract | multiply | divide =>
    rw [perform] at h
    exact absurd h binary_ne_done
  | logicalNot | negate =>
    rw [perform] at h
    exact absurd h unary_ne_done
  | constant | getLocal | pop | loop | jumpIfFalse =>
    rw [perform] at h
    split at h <;> cases h
  | setLocal =>
    rw [perform] at h
    split at h
    · split at h <;> cases h
    · cases h
  | getGlobal | defineGlobal | print =>
    rw [perform] at h
    split at h
    · cases h
    · split at h <;> cases h
  | setGlobal =>
    rw [perform] at h
    split at h
    · cases h
    · split at h
      · cases h
      · split at h <;> cases h
  | call count =>
    rw [perform] at h
    exact absurd h call_ne_done

/-- The last return leaves no calls, and of the stack what was below the call. -/
theorem leave_of_done (h : m.leave = .done m') : ∃ frame, m.frames = [frame] ∧ m'.frames = [] ∧
    m'.stack = m.stack.pop.shrink frame.slots := by
  unfold leave at h
  split at h
  · cases h
  · cases h
  · rename_i frame _ hframes
    cases h
    exact ⟨frame, hframes, rfl, rfl⟩
  · cases h

/-- There is room for the active calls, the lowest one begins at the bottom of the stack, and no call has gone
    further than `reach` beyond its code. -/
structure Confined (room reach : Nat) (m : Machine) : Prop where
  room : m.frames.length ≤ room
  bottom : ∀ frame ∈ m.frames.getLast?, frame.slots = 0
  ip : ∀ frame ∈ m.frames, frame.ip ≤ frame.function.chunk.size + reach

theorem Confined.of_empty (room reach : Nat) (h : m.frames = []) : Confined room reach m where
  room := by
    rw [h]
    exact Nat.zero_le room
  bottom := by
    rw [h]
    exact fun _ hframe => by cases hframe
  ip := by
    rw [h]
    exact fun _ hframe => absurd hframe List.not_mem_nil

theorem Confined.mono (h : Confined room reach m) {further : Nat} (hle : reach ≤ further) :
    Confined room further m :=
  { h with ip := fun frame hframe => Nat.le_trans (h.ip frame hframe) (Nat.add_le_add_left hle _) }

/-- The innermost call goes on at a place near its code. -/
theorem Confined.goOn (h : Confined room reach m) (hframes : m.frames = frame :: callers) {ip : Nat}
    (hip : ip ≤ frame.function.chunk.size + reach) (hframes' : m'.frames = { frame with ip } :: callers) :
    Confined room reach m' := by
  obtain ⟨hroom, hbottom, hips⟩ := h
  rw [hframes] at hroom hbottom hips
  refine ⟨?_, ?_, ?_⟩ <;> rw [hframes']
  · exact hroom
  · cases callers with
    | nil =>
      intro bottom heq
      cases heq
      exact hbottom frame rfl
    | cons caller callers => exact hbottom
  · exact List.forall_mem_cons.mpr ⟨hip, (List.forall_mem_cons.mp hips).2⟩

theorem Confined.step (h : Confined m.limits.maxFrames 65535 m) (hstep : Machine.step hosts m = .next m') :
    Confined m.limits.maxFrames 65535 m' := by
  cases hframes : m.frames with
  | nil =>
    unfold Machine.step at hstep
    rw [hframes] at hstep
    split at hstep <;> cases hstep
  | cons frame callers =>
    obtain ⟨i, hread, hmoves⟩ := moves_step hframes hstep
    have hwithin : frame.ip + i.size ≤ frame.function.chunk.size := Instruction.read_within hread
    cases hmoves with
    | stay ip hleads hframes' =>
      have hle := Instruction.le_of_leads (hleads frame.ip rfl)
      exact h.goOn hframes (by omega) hframes'
    | enter count callee _ hentry hroom _ hframes' _ =>
      have hcaller : Confined m.limits.maxFrames 65535
          { m with frames := { frame with ip := frame.ip + i.size } :: callers } :=
        h.goOn hframes (by omega) rfl
      refine ⟨?_, ?_, ?_⟩ <;> rw [hframes']
      · exact hroom
      · exact hcaller.bottom
      · exact List.forall_mem_cons.mpr ⟨by omega, hcaller.ip⟩
    | leave result _ hframes' _ =>
      obtain ⟨hroom, hbottom, hips⟩ := h
      rw [hframes] at hroom hbottom hips
      refine ⟨?_, ?_, ?_⟩ <;> rw [hframes']
      · exact Nat.le_of_succ_le hroom
      · cases callers with
        | nil => exact fun _ heq => by cases heq
        | cons caller callers => exact hbottom
      · exact (List.forall_mem_cons.mp hips).2

/-- A fault leaves the calls as they are, but for the place of the innermost one. -/
theorem Confined.fault (h : Confined room 65535 m) {fault : Fault}
    (hstep : Machine.step hosts m = .fault m' fault) :
    Confined room 65536 m' := by
  have hwider := h.mono (Nat.le_succ 65535)
  unfold Machine.step at hstep
  split at hstep
  · cases hstep
    exact hwider
  · split at hstep
    · cases hstep
      exact hwider
    · rename_i frame callers hframes
      have hip := h.ip frame (by rw [hframes]; exact List.mem_cons_self)
      have htail : m.frames.tail = callers := by rw [hframes, List.tail_cons]
      rw [htail] at hstep
      split at hstep
      · rename_i i hread
        have hwithin : frame.ip + i.size ≤ frame.function.chunk.size := Instruction.read_within hread
        have hplace := perform_failsInPlace (hosts.during m.steps)
          { m with steps := m.steps + 1, frames := { frame with ip := frame.ip + i.size } :: callers }
          { frame with ip := frame.ip + i.size } i
        rw [hstep] at hplace
        exact hwider.goOn hframes (by omega) hplace.1
      · cases hstep
        exact hwider.goOn hframes (Nat.succ_le_succ hip) (by rw [goTo, htail])
      · cases hstep
        exact hwider.goOn hframes (by omega : frame.function.chunk.size + 1 ≤ _) (by rw [goTo, htail])
      · cases hstep
        exact hwider.goOn hframes (Nat.succ_le_succ hip) (by rw [goTo, htail])

/-- When the script returns, nothing is left. -/
theorem Confined.done (h : Confined room reach m) (hstep : Machine.step hosts m = .done m') :
    m'.stack = #[] ∧ m'.frames = [] := by
  unfold Machine.step at hstep
  split at hstep
  · cases hstep
  · split at hstep
    · cases hstep
    · rename_i frame callers hframes
      split at hstep
      · rename_i i hread
        obtain ⟨bottom, hbottom, hempty, hstack⟩ := leave_of_done (perform_of_done hstep)
        have hlowest : m.frames.getLast? = some { frame with slots := bottom.slots } := by
          rw [hframes, List.tail_cons] at hbottom
          obtain ⟨rfl, rfl⟩ := List.cons.inj hbottom
          rw [hframes]
          rfl
        have hslots : bottom.slots = 0 := h.bottom { frame with slots := bottom.slots } hlowest
        refine ⟨?_, hempty⟩
        rw [hstack, hslots]
        exact Array.eq_empty_of_size_eq_zero (by simp)
      · cases hstep
      · cases hstep
      · cases hstep

/-- What can be said of the calls of a run that has come so far: how they are while it goes on or when it
    fails, and that nothing is left when it is done. -/
def Progress.Contained (room : Nat) : Progress → Prop
  | .running m => m.limits.maxFrames = room ∧ Confined room 65535 m
  | .done m => m.stack = #[] ∧ m.frames = []
  | .failed m _ => Confined room 65536 m

theorem advance_contained (hosts : Hosts) (h : Confined m.limits.maxFrames 65535 m) (fuel : Nat) :
    (advance hosts m fuel).Contained m.limits.maxFrames := by
  induction fuel generalizing m with
  | zero => exact ⟨rfl, h⟩
  | succ fuel ih =>
    have hkeeps := step_keeps hosts m
    rw [advance]
    cases hstep : Machine.step hosts m with
    | next m' =>
      rw [hstep] at hkeeps
      have hnext := h.step hstep
      rw [← hkeeps.1] at hnext ⊢
      exact ih hnext
    | done m' => exact h.done hstep
    | fault m' fault => exact h.fault hstep

theorem progress_contained (hosts : Hosts) (fuel : Nat) (m : Machine) (script : Function) :
    (progress hosts fuel m script).Contained m.limits.maxFrames := by
  rw [progress, start_eq]
  by_cases harity : script.arity ≠ 0
  · rw [if_pos harity]
    exact .of_empty _ _ rfl
  · rw [if_neg harity]
    by_cases hroom : m.limits.maxFrames = 0
    · rw [if_pos hroom]
      exact .of_empty _ _ rfl
    · rw [if_neg hroom]
      refine advance_contained hosts
        (m := { m.loaded script with frames := [⟨⟨m.nextOrigin, []⟩, script, 0, 0⟩] })
        ⟨Nat.pos_of_ne_zero hroom, ?_, List.forall_mem_singleton.mpr (Nat.zero_le _)⟩ fuel
      intro frame heq
      cases heq
      rfl

theorem Progress.Contained.confined {p : Progress} (h : p.Contained room) : Confined room 65536 p.machine := by
  cases p with
  | running m => exact h.2.mono (Nat.le_succ 65535)
  | done m => exact .of_empty _ _ h.2
  | failed m fault => exact h

theorem Progress.Contained.outcome {p : Progress} (h : p.Contained room) {o : Outcome}
    (ho : p.outcome? = some o) :
    o.machine.stack = #[] ∧ o.machine.frames = [] := by
  cases p with
  | running m => cases ho
  | done m =>
    cases ho
    exact h
  | failed m fault =>
    cases ho
    exact ⟨rfl, rfl⟩

end Machine

/-! ### Sinks with the same room -/

namespace Sink

/-- How many more bytes a sink takes; `none` if there is no bound. -/
def room (sink : Sink) : Option Nat := sink.capacity.map (· - sink.bytes.size)

/-- Two sinks with the same room, to which the same bytes were added since they held `base` and `base'`. -/
structure Beside (base base' : ByteArray) (sink sink' : Sink) : Prop where
  room : sink'.room = sink.room
  added : ∃ printed, sink.bytes = base ++ printed ∧ sink'.bytes = base' ++ printed

theorem Beside.self {sink sink' : Sink} (h : sink'.room = sink.room) :
    Beside sink.bytes sink'.bytes sink sink' :=
  ⟨h, .empty, ByteArray.append_empty.symm, ByteArray.append_empty.symm⟩

/-- What a write places depends on the room alone. -/
theorem write_eq (sink : Sink) (text : String) : sink.write text =
    (decide (text.toUTF8.size ≤ sink.room.getD text.toUTF8.size),
      { sink with bytes := sink.bytes ++ text.toUTF8.extract 0 (sink.room.getD text.toUTF8.size) }) := by
  have hall {room : Nat} (hfits : text.toUTF8.size ≤ room) : text.toUTF8.extract 0 room = text.toUTF8 := by
    conv_lhs => rw [← Nat.max_eq_left hfits]
    exact ByteArray.extract_zero_max_size
  obtain ⟨bytes, capacity⟩ := sink
  cases capacity with
  | none =>
    simp only [write, room, Option.map_none, Option.getD_none, Nat.le_refl, if_true, decide_true, hall]
  | some capacity =>
    simp only [write, room, Option.map_some, Option.getD_some]
    split
    · rename_i hfits
      rw [hall hfits]
      exact Prod.ext (decide_eq_true hfits).symm rfl
    · rename_i hfits
      exact Prod.ext (decide_eq_false hfits).symm rfl

theorem room_append (sink : Sink) (added : ByteArray) :
    ({ sink with bytes := sink.bytes ++ added } : Sink).room = sink.room.map (· - added.size) := by
  unfold room
  cases sink.capacity with
  | none => rfl
  | some capacity =>
    rw [Option.map_some, Option.map_some, Option.map_some, ByteArray.size_append, Nat.sub_add_eq]

theorem Beside.write {base base' : ByteArray} {sink sink' : Sink} (h : Beside base base' sink sink')
    (text : String) :
    (sink'.write text).1 = (sink.write text).1 ∧
      Beside base base' (sink.write text).2 (sink'.write text).2 := by
  obtain ⟨printed, hprinted, hprinted'⟩ := h.added
  rw [write_eq, write_eq, h.room]
  refine ⟨rfl, by rw [room_append, room_append, h.room],
    printed ++ text.toUTF8.extract 0 (sink.room.getD text.toUTF8.size), ?_, ?_⟩
  · rw [← ByteArray.append_assoc, ← hprinted]
  · rw [← ByteArray.append_assoc, ← hprinted']

end Sink

namespace Machine

variable {host : Host} {hosts : Hosts} {m m' : Machine} {base base' : ByteArray}

theorem advance_beside (hosts : Hosts) {sink : Sink} (h : Sink.Beside base base' m.sink sink) (fuel : Nat) :
    ∃ sink', advance hosts (m.withSink sink) fuel = (advance hosts m fuel).withSink sink' ∧
      Sink.Beside base base' (advance hosts m fuel).machine.sink sink' := by
  induction fuel generalizing m sink with
  | zero => exact ⟨sink, rfl, h⟩
  | succ fuel ih =>
    rw [advance, advance]
    rcases step_withSink hosts m with hsame | ⟨text, after, stuck, hprints⟩
    · have hsink := sink_step_of_unseen hsame
      rw [hsame sink]
      cases hstep : step hosts m <;> rw [hstep] at hsink
      · exact ih (hsink ▸ h)
      · exact ⟨sink, rfl, hsink ▸ h⟩
      · exact ⟨sink, rfl, hsink ▸ h⟩
    · have hstep : step hosts m = printing text after stuck m.sink := hprints m.sink
      obtain ⟨hplaced, hwritten⟩ := h.write text
      rw [hstep, hprints sink, printing, printing]
      rcases hwrite : m.sink.write text with ⟨placed, written⟩
      rcases hwrite' : sink.write text with ⟨placed', written'⟩
      rw [hwrite, hwrite'] at hplaced hwritten
      obtain rfl : placed' = placed := hplaced
      cases placed' with
      | true => exact ih (m := after.withSink written) hwritten
      | false => exact ⟨written', rfl, hwritten⟩

/-- Machines that nothing tells apart but what earlier runs have left on the stack, in the calls, in the count
    of steps and in the output. -/
structure SameOutside (m m' : Machine) : Prop where
  globals : m'.globals = m.globals
  limits : m'.limits = m.limits
  nextOrigin : m'.nextOrigin = m.nextOrigin
  room : m'.sink.room = m.sink.room

/-- The beginning of a run empties the machine. -/
theorem SameOutside.start (h : SameOutside m m') (script : Function) :
    m'.start script = (m.start script).withSink m'.sink := by
  have hloaded : m'.loaded script = (m.withSink m'.sink).loaded script := by
    simp only [loaded, reset, withSink, h.globals, h.limits, h.nextOrigin]
  rw [← start_withSink, start_eq, start_eq, hloaded, h.nextOrigin, h.limits]
  rfl

/-- Runs that end alike: with the same result, the same notes and the same globals, after the same output. -/
structure Outcome.Repeats (m m' : Machine) (o o' : Outcome) : Prop where
  result : o'.result = o.result
  log : o'.log = o.log
  globals : o'.machine.globals = o.machine.globals
  output : ∃ printed, o.machine.sink.bytes = m.sink.bytes ++ printed ∧
    o'.machine.sink.bytes = m'.sink.bytes ++ printed

theorem Outcome.repeats {p : Progress} {sink : Sink}
    (h : Sink.Beside m.sink.bytes m'.sink.bytes p.machine.sink sink) :
    Option.Rel (Outcome.Repeats m m') p.outcome? (p.withSink sink).outcome? := by
  cases p with
  | running m₁ => exact .none
  | done m₁ => exact .some ⟨rfl, rfl, rfl, h.added⟩
  | failed m₁ fault =>
    have hbeside : Sink.Beside m.sink.bytes m'.sink.bytes m₁.sink sink := h
    have htrace : (m₁.withSink sink).trace = m₁.trace := rfl
    obtain ⟨hplaced, hwritten⟩ := hbeside.write ((RuntimeError.mk fault m₁.trace).text ++ "\n")
    refine .some ⟨rfl, ?_, rfl, hwritten.added⟩
    simp only [fail, report, htrace, sink_withSink, hplaced]

/-- A run of a script does what a run on another machine does that has the same globals and limits. -/
theorem SameOutside.run (h : SameOutside m m') (hosts : Hosts) (fuel : Nat) (script : Function) :
    Option.Rel (Outcome.Repeats m m') (Machine.run hosts fuel m script) (Machine.run hosts fuel m' script) := by
  have hstart := start_withSink m m.sink script
  have hself : m.withSink m.sink = m := rfl
  rw [hself] at hstart
  have hbeside := Sink.Beside.self h.room
  rw [run_eq, run_eq, progress, progress, h.start script]
  cases hbegin : m.start script <;> rw [hbegin] at hstart
  case running m₀ =>
    have hsink : m₀.sink = m.sink := by rw [Progress.running.inj hstart, sink_withSink]
    obtain ⟨sink, hadvance, hadded⟩ := advance_beside hosts (m := m₀) (hsink ▸ hbeside) fuel
    show Option.Rel _ (advance hosts m₀ fuel).outcome? (advance hosts (m₀.withSink m'.sink) fuel).outcome?
    rw [hadvance]
    exact Outcome.repeats (hsink ▸ hadded)
  case done m₀ =>
    have hsink : m₀.sink = m.sink := by rw [Progress.done.inj hstart, sink_withSink]
    exact Outcome.repeats (p := .done m₀) (hsink ▸ hbeside)
  case failed m₀ fault =>
    have hsink : m₀.sink = m.sink := by rw [(Progress.failed.inj hstart).1, sink_withSink]
    exact Outcome.repeats (p := .failed m₀ fault) (hsink ▸ hbeside)

/-- Whatever the function is and whatever the machine holds: a run that ends leaves the stack and the calls
    empty. As long as it goes on, there are no more calls than the limit admits, the lowest has its values at
    the bottom of the stack, and no call goes further beyond its code than a jump reaches. No direct access to
    the stack is out of range. And on another machine with the same globals and limits, whatever is on its
    stack, in its calls and in its count of steps, the run ends alike and after the same output. -/
theorem run_leaves_clean (hosts : Hosts) (m : Machine) (script : Function) :
    (∀ fuel o, m.run hosts fuel script = some o → o.machine.stack = #[] ∧ o.machine.frames = []) ∧
    (∀ fuel, Confined m.limits.maxFrames 65536 (progress hosts fuel m script).machine) ∧
    (∀ fuel, run? hosts fuel m script = some (m.run hosts fuel script)) ∧
    ∀ m', SameOutside m m' → ∀ fuel,
      Option.Rel (Outcome.Repeats m m') (m.run hosts fuel script) (m'.run hosts fuel script) := by
  refine ⟨fun fuel o hrun => ?_, fun fuel => (progress_contained hosts fuel m script).confined,
    fun fuel => run?_eq hosts fuel m script, fun m' h fuel => h.run hosts fuel script⟩
  rw [run_eq] at hrun
  exact (progress_contained hosts fuel m script).outcome hrun

/-- A script that drops the value of its own call, and calls what it finds in the place of a function. -/
def rootless : Function :=
  { arity := 0, chunk := { code := #[0x04, 0x01, 0x01, 0x17, 0x01], lines := #[1], constants := [] },
    name := none }

/-- A machine on which an earlier run has left its values, a call and a count of steps. -/
def littered : Machine :=
  { Machine.new {} {} with stack := #[.nil, .bool true], frames := [⟨⟨9, []⟩, rootless, 77, 3⟩], steps := 12 }

theorem sameOutside_littered : SameOutside (Machine.new {} {}) littered := ⟨rfl, rfl, rfl, rfl⟩

/-- The rootless script fails on the littered machine as on a new one, and leaves both clean. -/
theorem run_leaves_clean_rootless : ∃ o o', (Machine.new {} {}).run (Host.standard 0) 4 rootless = some o ∧
    littered.run (Host.standard 0) 4 rootless = some o' ∧ o'.machine.stack = #[] ∧ o'.machine.frames = [] ∧
    o'.result = o.result := by
  have hends : ((Machine.new {} {}).run (Host.standard 0) 4 rootless).isSome = true := by decide +kernel
  obtain ⟨o, hrun⟩ := Option.isSome_iff_exists.mp hends
  have hsame := (run_leaves_clean (Host.standard 0) (Machine.new {} {}) rootless).2.2.2 littered
    sameOutside_littered 4
  rw [hrun] at hsame
  obtain ⟨o', hrun', hrepeats⟩ : ∃ o', littered.run (Host.standard 0) 4 rootless = some o' ∧
      Outcome.Repeats (Machine.new {} {}) littered o o' := by
    cases hlittered : littered.run (Host.standard 0) 4 rootless <;> rw [hlittered] at hsame <;> cases hsame
    exact ⟨_, rfl, ‹_›⟩
  have hclean := (run_leaves_clean (Host.standard 0) littered rootless).1 4 o' hrun'
  exact ⟨o, o', hrun, hrun', hclean.1, hclean.2, hrepeats.result⟩

end Machine

end Lox
