import Lox.Machine.Step

/-! # The surroundings of a machine

The limits of a machine and its sink are its surroundings. Most instructions see neither: they do the same
amid all surroundings. The exceptions are calls of functions, which depend on the limits, and prints, which
write to the sink. -/

namespace Lox.Machine

/-- The machine amid other limits and with another sink. -/
def amid (m : Machine) (limits : Limits) (sink : Sink) : Machine := { m with limits, sink }

/-- A step that leads to the same machine amid other limits and with another sink. -/
def Step.amid (limits : Limits) (sink : Sink) : Step → Step
  | .next m => .next (m.amid limits sink)
  | .done m => .done (m.amid limits sink)
  | .fault m reason => .fault (m.amid limits sink) reason

section

variable {host : Host} {hosts : Hosts} (m : Machine) (limits : Limits) (sink : Sink)

@[simp] theorem stack_amid : (m.amid limits sink).stack = m.stack := rfl

@[simp] theorem frames_amid : (m.amid limits sink).frames = m.frames := rfl

@[simp] theorem globals_amid : (m.amid limits sink).globals = m.globals := rfl

@[simp] theorem sink_amid : (m.amid limits sink).sink = sink := rfl

@[simp] theorem limits_amid : (m.amid limits sink).limits = limits := rfl

@[simp] theorem peek?_amid (distance : Nat) : (m.amid limits sink).peek? distance = m.peek? distance := rfl

theorem unary_amid (f : Value → Except Fault Value) :
    (m.amid limits sink).unary f = (m.unary f).amid limits sink := by
  simp only [unary, peek?_amid]
  cases m.peek? 0 with
  | none => rfl
  | some a =>
    dsimp only
    cases f a <;> rfl

theorem binary_amid (f : Value → Value → Except Fault Value) :
    (m.amid limits sink).binary f = (m.binary f).amid limits sink := by
  simp only [binary, peek?_amid]
  cases m.peek? 1 with
  | none => rfl
  | some a =>
    cases m.peek? 0 with
    | none => rfl
    | some b =>
      dsimp only
      cases f a b <;> rfl

theorem callNative_amid (native : Native) (count : UInt8) :
    callNative host (m.amid limits sink) native count = (callNative host m native count).amid limits sink := by
  by_cases hsize : m.stack.size < count.toNat
  · rw [callNative, callNative, if_pos hsize, stack_amid, if_pos hsize]
    rfl
  · rw [callNative, callNative, if_neg hsize, stack_amid, if_neg hsize]
    dsimp only
    cases host native.routine (m.stack.extract (m.stack.size - count.toNat)) <;> rfl

theorem leave_amid : (m.amid limits sink).leave = m.leave.amid limits sink := by
  simp only [leave, peek?_amid, frames_amid]
  cases m.peek? 0 with
  | none => rfl
  | some result =>
    rcases m.frames with _ | ⟨frame, _ | ⟨caller, callers⟩⟩ <;> rfl

/-- A call depends on the surroundings only through whether there is room for one more active call. -/
theorem callFunction_amid (hroom : limits.maxFrames ≤ m.frames.length ↔ m.limits.maxFrames ≤ m.frames.length)
    (id : ObjectId) (f : Function) (count : UInt8) :
    (m.amid limits sink).callFunction id f count = (m.callFunction id f count).amid limits sink := by
  by_cases harity : count ≠ f.arity
  · rw [callFunction, callFunction, if_pos harity, if_pos harity]
    rfl
  · by_cases hframes : m.limits.maxFrames ≤ m.frames.length
    · have hframes' : (m.amid limits sink).limits.maxFrames ≤ (m.amid limits sink).frames.length :=
        hroom.mpr hframes
      rw [callFunction, callFunction, if_neg harity, if_neg harity, if_pos hframes, if_pos hframes']
      rfl
    · have hframes' : ¬(m.amid limits sink).limits.maxFrames ≤ (m.amid limits sink).frames.length :=
        fun hle => hframes (hroom.mp hle)
      rw [callFunction, callFunction, if_neg harity, if_neg harity, if_neg hframes, if_neg hframes', stack_amid]
      split <;> rfl

theorem call_amid (hroom : limits.maxFrames ≤ m.frames.length ↔ m.limits.maxFrames ≤ m.frames.length)
    (count : UInt8) :
    call host (m.amid limits sink) count = (call host m count).amid limits sink := by
  simp only [call, peek?_amid]
  rcases m.peek? count.toNat with _ | _ | _ | _ | _ | ⟨id, f⟩ | ⟨id, native⟩
  · rfl
  · rfl
  · rfl
  · rfl
  · rfl
  · exact callFunction_amid m limits sink hroom id f count
  · exact callNative_amid m limits sink native count

/-- All other instructions but prints do the same amid all surroundings. -/
theorem perform_amid (frame : Frame) {i : Instruction} (hcall : ∀ count, i ≠ .call count)
    (hprint : i ≠ .print) :
    perform host (m.amid limits sink) frame i = (perform host m frame i).amid limits sink := by
  cases i with
  | call count => exact absurd rfl (hcall count)
  | print => exact absurd rfl hprint
  | nil | trueValue | falseValue | jump => rfl
  | ret => exact leave_amid m limits sink
  | equal | greater | less | add | subtract | multiply | divide =>
    rw [perform, perform]
    exact binary_amid m limits sink _
  | logicalNot | negate =>
    rw [perform, perform]
    exact unary_amid m limits sink _
  | constant index =>
    rw [perform, perform]
    cases frame.constant? index <;> rfl
  | pop =>
    rw [perform, perform, stack_amid]
    split <;> rfl
  | getLocal slot =>
    rw [perform, perform, stack_amid]
    cases m.stack[frame.slots + slot.toNat]? <;> rfl
  | setLocal slot =>
    rw [perform, perform, stack_amid, peek?_amid]
    cases m.peek? 0 <;> split <;> rfl
  | getGlobal index =>
    rw [perform, perform]
    cases frame.name index with
    | error fault => rfl
    | ok name =>
      simp only [globals_amid]
      cases m.globals.get? name <;> rfl
  | defineGlobal index =>
    rw [perform, perform, peek?_amid]
    cases frame.name index <;> cases m.peek? 0 <;> rfl
  | setGlobal index =>
    rw [perform, perform, peek?_amid]
    cases frame.name index with
    | error fault => rfl
    | ok name =>
      cases m.peek? 0 with
      | none => rfl
      | some value =>
        simp only [globals_amid]
        cases m.globals.assign? name value <;> rfl
  | jumpIfFalse distance =>
    rw [perform, perform, peek?_amid]
    cases m.peek? 0 with
    | none => rfl
    | some value =>
      dsimp only
      split <;> rfl
  | loop distance =>
    rw [perform, perform]
    split <;> rfl

end

end Lox.Machine
