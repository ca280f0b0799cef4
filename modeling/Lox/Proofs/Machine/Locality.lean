import Lox.Proofs.Machine.Discipline

/-! # Calls are local

An instruction of a call neither reads nor writes the stack below the call: whatever stands there, it does the
same above, and leaves what is below as it is. -/

namespace Lox.Machine

variable {S : Function → Prop} {depth : Function → Nat → Option Nat} {host : Host} {m : Machine}
    {low low' high : Array Value}

/-- Replaces the whole stack. -/
def withStack (m : Machine) (stack : Array Value) : Machine := { m with stack }

theorem stack_withStack (m : Machine) (stack : Array Value) : (m.withStack stack).stack = stack := rfl

theorem globals_withStack (m : Machine) (stack : Array Value) : (m.withStack stack).globals = m.globals := rfl

theorem sink_withStack (m : Machine) (stack : Array Value) : (m.withStack stack).sink = m.sink := rfl

theorem limits_withStack (m : Machine) (stack : Array Value) : (m.withStack stack).limits = m.limits := rfl

theorem steps_withStack (m : Machine) (stack : Array Value) : (m.withStack stack).steps = m.steps := rfl

/-- Two steps that are the same but for what stands at the bottom of the stack, which both leave there. -/
inductive Step.Alike (low low' : Array Value) : Step → Step → Prop
  | next (m : Machine) (high : Array Value) :
      Alike low low' (.next (m.withStack (low ++ high))) (.next (m.withStack (low' ++ high)))
  | done (m : Machine) (high : Array Value) :
      Alike low low' (.done (m.withStack (low ++ high))) (.done (m.withStack (low' ++ high)))
  | fault (m : Machine) (high : Array Value) (reason : Fault) :
    Alike low low' (.fault (m.withStack (low ++ high)) reason) (.fault (m.withStack (low' ++ high)) reason)

/-! ### The upper part of the stack -/

theorem peek_withStack (m : Machine) (low high : Array Value) {distance : Nat} (h : distance < high.size) :
    (m.withStack (low ++ high)).peek? distance = high[high.size - 1 - distance]? := by
  have hlt : distance < (low ++ high).size := by
    rw [Array.size_append]
    omega
  have hindex : (low ++ high).size - 1 - distance - low.size = high.size - 1 - distance := by
    rw [Array.size_append]
    omega
  show (if distance < (low ++ high).size then _ else _) = _
  rw [if_pos hlt]
  show (low ++ high)[(low ++ high).size - 1 - distance]? = _
  rw [Array.getElem?_append_right (by rw [Array.size_append]; omega), hindex]

/-- A value of the upper part, whatever the lower part is. -/
theorem exists_peek_withStack {distance : Nat} (h : distance < high.size) :
    ∃ value, ∀ (m : Machine) (low : Array Value), (m.withStack (low ++ high)).peek? distance = some value := by
  refine ⟨high[high.size - 1 - distance], fun m low => ?_⟩
  rw [peek_withStack m low high h]
  exact Array.getElem?_eq_getElem (by omega)

theorem pop_append (low : Array Value) {high : Array Value} (h : 0 < high.size) :
    (low ++ high).pop = low ++ high.pop := by
  rw [Array.pop_append, if_neg]
  simp only [Array.isEmpty_iff_size_eq_zero]
  omega

theorem shrink_append (low high : Array Value) (size : Nat) :
    (low ++ high).shrink (low.size + size) = low ++ high.shrink size := by
  simp only [Array.shrink_eq_take, Array.take_eq_extract, Array.extract_append]
  rw [Array.extract_eq_self_of_le (by omega), Nat.add_sub_cancel_left, Nat.zero_sub]

theorem extract_append (low high : Array Value) (first last : Nat) :
    (low ++ high).extract (low.size + first) (low.size + last) = high.extract first last := by
  rw [Array.extract_append, Nat.add_sub_cancel_left, Nat.add_sub_cancel_left]
  rw [Array.extract_empty_of_size_le_start (by omega)]
  simp

/-! ### Instructions -/

/-- Two machines that differ only at the bottom of the stack, after a change of the upper part. -/
theorem Step.alike_next (m : Machine) (high : Array Value) {stack stack' : Array Value}
    (h : stack = low ++ high) (h' : stack' = low' ++ high) :
    Step.Alike low low' (.next (m.withStack stack)) (.next (m.withStack stack')) := by
  rw [h, h']
  exact .next m high

theorem unary_alike (f : Value → Except Fault Value) (h : 1 ≤ high.size) :
    Step.Alike low low' ((m.withStack (low ++ high)).unary f) ((m.withStack (low' ++ high)).unary f) := by
  obtain ⟨a, hpeek⟩ := exists_peek_withStack h
  unfold Machine.unary
  rw [hpeek, hpeek]
  dsimp only
  cases f a with
  | ok value =>
    have hstack : ∀ low : Array Value, (low ++ high).pop.push value = low ++ high.pop.push value :=
      fun low => by
      rw [pop_append low h, Array.push_append]
    exact Step.alike_next m _ (hstack low) (hstack low')
  | error fault => exact .fault m high fault

theorem binary_alike (f : Value → Value → Except Fault Value) (h : 2 ≤ high.size) :
    Step.Alike low low' ((m.withStack (low ++ high)).binary f) ((m.withStack (low' ++ high)).binary f) := by
  obtain ⟨a, hpeek⟩ := exists_peek_withStack (show 1 < high.size by omega)
  obtain ⟨b, hpeek'⟩ := exists_peek_withStack (show 0 < high.size by omega)
  unfold Machine.binary
  rw [hpeek, hpeek, hpeek', hpeek']
  dsimp only
  cases f a b with
  | ok value =>
    have hstack : ∀ low : Array Value, (low ++ high).pop.pop.push value = low ++ high.pop.pop.push value :=
      fun low => by
      rw [pop_append low (by omega), pop_append low (by rw [Array.size_pop]; omega), Array.push_append]
    exact Step.alike_next m _ (hstack low) (hstack low')
  | error fault => exact .fault m high fault

theorem push_alike (value : Value) :
    Step.Alike low low' (.next ((m.withStack (low ++ high)).push value))
      (.next ((m.withStack (low' ++ high)).push value)) :=
  Step.alike_next m _ Array.push_append Array.push_append

theorem callFunction_alike (id : ObjectId) (f : Function) (count : UInt8) (hsize : low.size = low'.size) :
    Step.Alike low low' ((m.withStack (low ++ high)).callFunction id f count)
      ((m.withStack (low' ++ high)).callFunction id f count) := by
  have hsame : (low ++ high).size = (low' ++ high).size := by rw [Array.size_append, Array.size_append, hsize]
  unfold Machine.callFunction
  split
  · exact .fault m high _
  · show Step.Alike low low' (if m.limits.maxFrames ≤ m.frames.length then _ else _)
      (if m.limits.maxFrames ≤ m.frames.length then _ else _)
    split
    · exact .fault m high _
    · show Step.Alike low low' (if (low ++ high).size < _ then _ else _) (if (low' ++ high).size < _ then
          _ else _)
      rw [hsame]
      split
      · exact .fault m high _
      · show Step.Alike low low' (.next { m.withStack (low ++ high) with
          frames := ⟨id, f, 0, (low ++ high).size - (count.toNat + 1)⟩ :: m.frames }) _
        rw [hsame]
        exact .next { m with frames := ⟨id, f, 0, (low' ++ high).size - (count.toNat + 1)⟩ :: m.frames } high

theorem callNative_alike (native : Native) (count : UInt8) (h : count.toNat + 1 ≤ high.size) :
    Step.Alike low low' (callNative host (m.withStack (low ++ high)) native count)
      (callNative host (m.withStack (low' ++ high)) native count) := by
  have hfirst : ∀ low : Array Value, (low ++ high).size - count.toNat =
      low.size + (high.size - count.toNat) := by
    intro low
    rw [Array.size_append]
    omega
  have harguments : ∀ low : Array Value, (low ++ high).extract ((low ++ high).size - count.toNat)
      (low ++ high).size = high.extract (high.size - count.toNat) high.size := by
    intro low
    rw [hfirst, Array.size_append]
    exact extract_append low high _ _
  unfold Machine.callNative
  have hlt : ∀ low : Array Value, ¬(m.withStack (low ++ high)).stack.size < count.toNat := by
    intro low
    show ¬(low ++ high).size < count.toNat
    rw [Array.size_append]
    omega
  rw [if_neg (hlt low), if_neg (hlt low')]
  simp only [stack_withStack, harguments]
  cases host native.routine (high.extract (high.size - count.toNat) high.size) with
  | ok value =>
    have hstack : ∀ low : Array Value,
        ((low ++ high).shrink ((low ++ high).size - count.toNat - 1)).push value =
        low ++ (high.shrink (high.size - count.toNat - 1)).push value := by
      intro low
      have hindex : (low ++ high).size - count.toNat - 1 = low.size + (high.size - count.toNat - 1) := by
        rw [Array.size_append]
        omega
      rw [hindex, shrink_append, Array.push_append]
    exact Step.alike_next m _ (hstack low) (hstack low')
  | error complaint => exact .fault m high _

theorem call_alike (count : UInt8) (hsize : low.size = low'.size) (h : count.toNat + 1 ≤ high.size) :
    Step.Alike low low' (call host (m.withStack (low ++ high)) count)
      (call host (m.withStack (low' ++ high)) count) := by
  obtain ⟨callee, hpeek⟩ := exists_peek_withStack h
  unfold Machine.call
  rw [hpeek, hpeek]
  cases callee with
  | function id f => exact callFunction_alike id f count hsize
  | native id native => exact callNative_alike native count h
  | nil | bool | number | string => exact .fault m high _

theorem leave_alike {frame : Frame} {callers : List Frame} (hframes : m.frames = frame :: callers)
    (hlow : low.size = frame.slots) (hlow' : low'.size = frame.slots) (h : 1 ≤ high.size) :
    Step.Alike low low' (m.withStack (low ++ high)).leave (m.withStack (low' ++ high)).leave := by
  have hstack : ∀ low : Array Value, low.size = frame.slots → (low ++ high).pop.shrink frame.slots = low := by
    intro low hsize
    rw [pop_append low h, ← hsize]
    have hshrink := shrink_append low high.pop 0
    rw [Nat.add_zero] at hshrink
    rw [hshrink]
    simp
  have hpush : ∀ (low : Array Value) (result : Value), low.size = frame.slots →
      ((low ++ high).pop.shrink frame.slots).push result = low ++ #[result] := by
    intro low result hsize
    rw [hstack low hsize]
    rfl
  have hframes₁ : ∀ stack, (m.withStack stack).frames = frame :: callers := fun _ => hframes
  obtain ⟨result, hpeek⟩ := exists_peek_withStack h
  unfold Machine.leave
  rw [hpeek, hpeek, hframes₁, hframes₁]
  cases callers with
  | nil =>
    show Step.Alike low low' (.done ({ m with frames := [] }.withStack ((low ++ high).pop.shrink frame.slots)))
      (.done ({ m with frames := [] }.withStack ((low' ++ high).pop.shrink frame.slots)))
    have hdone : Step.Alike low low' (.done ({ m with frames := [] }.withStack (low ++ #[])))
        (.done ({ m with frames := [] }.withStack (low' ++ #[]))) := .done _ #[]
    rw [Array.append_empty, Array.append_empty] at hdone
    rw [hstack low hlow, hstack low' hlow']
    exact hdone
  | cons caller callers =>
    exact Step.alike_next { m with frames := caller :: callers } #[result] (hpush low result hlow)
      (hpush low' result hlow')

/-- An instruction of the innermost call, whose stack is above `low`. -/
theorem perform_alike {frame : Frame} {callers : List Frame} {i : Instruction} {chunk : Chunk} {offset : Nat}
    (hframes : m.frames = frame :: callers) (hlow : low.size = frame.slots) (hlow' : low'.size = frame.slots)
    (htakes : i.takes ≤ high.size) (hoperands : i.OperandsFit chunk offset high.size) :
    Step.Alike low low' (perform host (m.withStack (low ++ high)) frame i)
      (perform host (m.withStack (low' ++ high)) frame i) := by
  cases i with
  | constant index =>
    rw [Machine.perform, Machine.perform]
    cases frame.constant? index with
    | none => exact .fault m high _
    | some value => exact push_alike value
  | nil | trueValue | falseValue => exact push_alike _
  | pop =>
    have hempty : ∀ low : Array Value, ¬(m.withStack (low ++ high)).stack.isEmpty = true := by
      intro low
      show ¬(low ++ high).isEmpty = true
      rw [Array.isEmpty_iff_size_eq_zero, Array.size_append]
      have hpos : 1 ≤ high.size := htakes
      omega
    rw [Machine.perform, Machine.perform, if_neg (hempty low), if_neg (hempty low')]
    exact Step.alike_next m _ (pop_append low htakes) (pop_append low' htakes)
  | getLocal slot =>
    have hget : ∀ low : Array Value, low.size = frame.slots → (low ++ high)[frame.slots + slot.toNat]? =
        high[slot.toNat]? := by
      intro low hsize
      rw [← hsize, Array.getElem?_append_right (Nat.le_add_right _ _), Nat.add_sub_cancel_left]
    rw [Machine.perform, Machine.perform, stack_withStack, stack_withStack, hget low hlow, hget low' hlow']
    cases high[slot.toNat]? with
    | none => exact .fault m high _
    | some value => exact push_alike value
  | setLocal slot =>
    have hlt : ∀ low : Array Value, low.size = frame.slots → frame.slots + slot.toNat < (low ++ high).size := by
      intro low hsize
      rw [Array.size_append, hsize]
      exact Nat.add_lt_add_left hoperands _
    have hset : ∀ (low : Array Value) (value : Value), low.size = frame.slots →
        (low ++ high).setIfInBounds (frame.slots + slot.toNat) value =
          low ++ high.setIfInBounds slot.toNat value := by
      intro low value hsize
      rw [← hsize, Array.setIfInBounds_append_right (Nat.le_add_right _ _), Nat.add_sub_cancel_left]
    obtain ⟨value, hpeek⟩ := exists_peek_withStack htakes
    show Step.Alike low low' (if frame.slots + slot.toNat < (low ++ high).size then _ else _)
      (if frame.slots + slot.toNat < (low' ++ high).size then _ else _)
    rw [if_pos (hlt low hlow), if_pos (hlt low' hlow'), hpeek, hpeek]
    exact Step.alike_next m _ (hset low value hlow) (hset low' value hlow')
  | getGlobal index =>
    rw [Machine.perform, Machine.perform]
    cases frame.name index with
    | error fault => exact .fault m high _
    | ok name =>
      dsimp only
      rw [globals_withStack, globals_withStack]
      cases m.globals.get? name with
      | none => exact .fault m high _
      | some value => exact push_alike value
  | defineGlobal index =>
    rw [Machine.perform, Machine.perform]
    cases frame.name index with
    | error fault => exact .fault m high _
    | ok name =>
      obtain ⟨value, hpeek⟩ := exists_peek_withStack htakes
      dsimp only
      rw [hpeek, hpeek]
      exact Step.alike_next { m with globals := m.globals.define name value } _ (pop_append low htakes)
        (pop_append low' htakes)
  | setGlobal index =>
    rw [Machine.perform, Machine.perform]
    cases frame.name index with
    | error fault => exact .fault m high _
    | ok name =>
      obtain ⟨value, hpeek⟩ := exists_peek_withStack htakes
      dsimp only
      rw [hpeek, hpeek, globals_withStack, globals_withStack]
      dsimp only
      cases m.globals.assign? name value with
      | none => exact .fault m high _
      | some globals => exact .next { m with globals } high
  | equal | greater | less | add | subtract | multiply | divide =>
    rw [Machine.perform, Machine.perform]
    exact binary_alike _ htakes
  | logicalNot | negate =>
    rw [Machine.perform, Machine.perform]
    exact unary_alike _ htakes
  | print =>
    obtain ⟨value, hpeek⟩ := exists_peek_withStack htakes
    rw [Machine.perform, Machine.perform, hpeek, hpeek, sink_withStack, sink_withStack]
    dsimp only
    obtain ⟨written, sink⟩ := m.sink.write (value.text ++ "\n")
    cases written with
    | false => exact .fault { m with sink } high _
    | true => exact Step.alike_next { m with sink } _ (pop_append low htakes) (pop_append low' htakes)
  | jump distance => exact .next (m.goTo frame (frame.ip + distance.toNat)) high
  | jumpIfFalse distance =>
    obtain ⟨value, hpeek⟩ := exists_peek_withStack htakes
    rw [Machine.perform, Machine.perform, hpeek, hpeek]
    dsimp only
    split
    · exact .next (m.goTo frame (frame.ip + distance.toNat)) high
    · exact .next m high
  | loop distance =>
    rw [Machine.perform, Machine.perform]
    split
    · exact .next (m.goTo frame (frame.ip - distance.toNat)) high
    · exact .fault m high _
  | call count => exact call_alike count (hlow.trans hlow'.symm) htakes
  | ret => exact leave_alike hframes hlow hlow' htakes

/-- A step of a disciplined machine does the same above the innermost call, whatever stands below. -/
theorem Disciplined.step_alike (hfamily : Function.Family S depth) (h : Disciplined S depth m) {frame : Frame}
    {callers : List Frame} (hframes : m.frames = frame :: callers) (hstack : m.stack = low ++ high)
    (hlow : low.size = frame.slots) (hlow' : low'.size = frame.slots) :
    Step.Alike low low' (Machine.step host m) (Machine.step host (m.withStack (low' ++ high))) := by
  have hstacked := h.stacked
  rw [hframes] at hstacked
  obtain ⟨⟨hfunction, height, hdepth, hsize⟩, -⟩ := hstacked
  obtain ⟨i, hread, hflows⟩ := (hfamily.flows hfunction).inside hdepth
  have hheight : high.size = height := by
    rw [hstack, Array.size_append] at hsize
    omega
  have hm : m = m.withStack (low ++ high) := by
    rw [← hstack]
    rfl
  have hframes' : (m.withStack (low' ++ high)).frames = frame :: callers := hframes
  rw [step_eq hframes hread, step_eq hframes' hread]
  rw [limits_withStack, steps_withStack]
  cases m.limits.maxSteps.filter (· ≤ m.steps) with
  | some limit =>
    rw [hm]
    exact .fault m high _
  | none =>
    let fetched := { m with steps := m.steps + 1, frames := { frame with ip := frame.ip + i.size } :: callers }
    have hfetched : fetched = fetched.withStack (low ++ high) := by
      rw [← hstack]
      rfl
    rw [← hheight] at hflows
    show Step.Alike low low' (perform host fetched _ i) (perform host (fetched.withStack (low' ++ high)) _ i)
    rw [hfetched]
    exact perform_alike rfl hlow hlow' hflows.takes hflows.operands

end Lox.Machine
