import Lox.Proofs.Machine.Discipline
import Lox.Proofs.Machine.Surroundings
import Lox.Proofs.Preservation

/-! # Limits

Limits only cut runs short. They are read in two places: before an instruction is fetched and before a
function is called. So a step under larger limits does what it does under smaller ones, unless the smaller
ones stop it; a run that no limit stops is the same run under larger limits, and one that a limit stops is the
beginning of the run under larger limits. -/

namespace Lox

/-- The faults that are raised by the limits and by nothing else. -/
def Fault.IsLimit : Fault → Prop
  | .stepLimit _ | .stackOverflow => True
  | _ => False

/-- Limits that are no larger than others, where no limit of steps is the largest. -/
structure Limits.Within (limits larger : Limits) : Prop where
  maxFrames : limits.maxFrames ≤ larger.maxFrames
  maxSteps : ∀ n', larger.maxSteps = some n' → ∃ n, limits.maxSteps = some n ∧ n ≤ n'

/-- Where the limit of steps does not stop the machine, a larger one does not. -/
theorem Limits.Within.filter_eq_none {limits larger : Limits} (h : limits.Within larger) {steps : Nat}
    (hnone : limits.maxSteps.filter (· ≤ steps) = none) : larger.maxSteps.filter (· ≤ steps) = none := by
  rw [Option.filter_eq_none_iff] at hnone ⊢
  intro n' hn'
  obtain ⟨n, hn, hle⟩ := h.maxSteps n' hn'
  have hlt := hnone n hn
  simp only [decide_eq_true_eq] at hlt ⊢
  omega

namespace Machine

variable {host : Host} {hosts : Hosts} {m m' : Machine} {limits : Limits} {frame : Frame} {i : Instruction}
    {fuel n : Nat}

/-- The machine under other limits. -/
def withLimits (m : Machine) (limits : Limits) : Machine := { m with limits }

/-- The same step under other limits. -/
def Step.withLimits (limits : Limits) : Step → Step
  | .next m => .next (m.withLimits limits)
  | .done m => .done (m.withLimits limits)
  | .fault m reason => .fault (m.withLimits limits) reason

/-- The same progress under other limits. -/
def Progress.withLimits (limits : Limits) : Progress → Progress
  | .running m => .running (m.withLimits limits)
  | .done m => .done (m.withLimits limits)
  | .failed m reason => .failed (m.withLimits limits) reason

/-- The machine of a run that has come so far. -/
def Progress.machine : Progress → Machine
  | .running m | .done m | .failed m _ => m

/-- How far a run of a script has come after at most `fuel` steps. -/
def progress (hosts : Hosts) (fuel : Nat) (m : Machine) (script : Function) : Progress :=
  match m.start script with
  | .running m => advance hosts m fuel
  | ended => ended

theorem run_eq (hosts : Hosts) (fuel : Nat) (m : Machine) (script : Function) :
    run hosts fuel m script = (progress hosts fuel m script).outcome? := by
  unfold run progress
  cases m.start script <;> rfl

/-! ### What a step keeps -/

/-- An instruction changes neither the limits nor the count of steps, and it only adds to the output. -/
structure Kept (m m' : Machine) : Prop where
  limits : m'.limits = m.limits
  steps : m'.steps = m.steps
  output : ∃ printed, m'.sink.bytes = m.sink.bytes ++ printed

/-- Nothing but the stack, the calls and the globals has changed. -/
theorem Kept.of_sink (hlimits : m'.limits = m.limits) (hsteps : m'.steps = m.steps) (hsink : m'.sink = m.sink) :
    Kept m m' :=
  ⟨hlimits, hsteps, .empty, by rw [hsink, ByteArray.append_empty]⟩

theorem Kept.refl (m : Machine) : Kept m m := .of_sink rfl rfl rfl

/-- A step to which `Kept` applies, however it ends. -/
abbrev Step.Keeps (m : Machine) (s : Step) : Prop := s.Satisfies (Kept m) (Kept m) fun m' _ => Kept m m'

theorem exists_append_trans {a b c : ByteArray} (hab : ∃ x, b = a ++ x) (hbc : ∃ x, c = b ++ x) :
    ∃ x, c = a ++ x := by
  obtain ⟨x, rfl⟩ := hab
  obtain ⟨y, rfl⟩ := hbc
  exact ⟨x ++ y, ByteArray.append_assoc⟩

theorem exists_bytes_write (sink : Sink) (text : String) :
    ∃ printed, (sink.write text).2.bytes = sink.bytes ++ printed := by
  unfold Sink.write
  dsimp only
  split_ifs
  · exact ⟨text.toUTF8, rfl⟩
  · exact ⟨_, rfl⟩

theorem unary_keeps (m : Machine) (f : Value → Except Fault Value) : (m.unary f).Keeps m := by
  unfold Machine.unary
  split
  · exact .refl m
  · split
    · exact .of_sink rfl rfl rfl
    · exact .refl m

theorem binary_keeps (m : Machine) (f : Value → Value → Except Fault Value) : (m.binary f).Keeps m := by
  unfold Machine.binary
  split
  · split
    · exact .of_sink rfl rfl rfl
    · exact .refl m
  · exact .refl m

theorem callFunction_keeps (m : Machine) (id : ObjectId) (f : Function) (count : UInt8) :
    (m.callFunction id f count).Keeps m := by
  unfold Machine.callFunction
  split
  · exact .refl m
  · split
    · exact .refl m
    · split
      · exact .refl m
      · exact .of_sink rfl rfl rfl

theorem call_keeps (m : Machine) (count : UInt8) : (call host m count).Keeps m := by
  unfold Machine.call
  split
  · exact .refl m
  · exact callFunction_keeps m _ _ count
  · unfold callNative
    split
    · exact .refl m
    · dsimp only
      split
      · exact .of_sink rfl rfl rfl
      · exact .refl m
  · exact .refl m

theorem leave_keeps (m : Machine) : m.leave.Keeps m := by
  unfold Machine.leave
  split
  · exact .refl m
  · exact .refl m
  · exact .of_sink rfl rfl rfl
  · exact .of_sink rfl rfl rfl

theorem perform_keeps (host : Host) (m : Machine) (frame : Frame) (i : Instruction) :
    (perform host m frame i).Keeps m := by
  cases i with
  | nil | trueValue | falseValue | jump => exact .of_sink rfl rfl rfl
  | equal | greater | less | add | subtract | multiply | divide =>
    rw [perform]
    exact binary_keeps m _
  | logicalNot | negate =>
    rw [perform]
    exact unary_keeps m _
  | call count => exact call_keeps m count
  | ret => exact leave_keeps m
  | constant | getLocal =>
    rw [perform]
    split
    · exact .of_sink rfl rfl rfl
    · exact .refl m
  | pop =>
    rw [perform]
    split
    · exact .refl m
    · exact .of_sink rfl rfl rfl
  | setLocal =>
    rw [perform]
    split
    · split
      · exact .of_sink rfl rfl rfl
      · exact .refl m
    · exact .refl m
  | getGlobal | defineGlobal =>
    rw [perform]
    split
    · exact .refl m
    · split
      · exact .of_sink rfl rfl rfl
      · exact .refl m
  | setGlobal =>
    rw [perform]
    split
    · exact .refl m
    · split
      · exact .refl m
      · split
        · exact .of_sink rfl rfl rfl
        · exact .refl m
  | print =>
    rw [perform]
    split
    · exact .refl m
    · rename_i value _
      have hwrite := exists_bytes_write m.sink (value.text ++ "\n")
      split <;> rename_i hsink <;> rw [hsink] at hwrite <;> exact ⟨rfl, rfl, hwrite⟩
  | jumpIfFalse =>
    rw [perform]
    split
    · exact .refl m
    · show Kept m (if _ then _ else _)
      split
      · exact .of_sink rfl rfl rfl
      · exact .refl m
  | loop =>
    rw [perform]
    split
    · exact .of_sink rfl rfl rfl
    · exact .refl m

theorem step_keeps (hosts : Hosts) (m : Machine) : (step hosts m).Satisfies
    (fun m' => m'.limits = m.limits ∧ m'.steps = m.steps + 1 ∧ ∃ printed,
      m'.sink.bytes = m.sink.bytes ++ printed)
    (fun m' => ∃ printed, m'.sink.bytes = m.sink.bytes ++ printed)
    fun m' _ => ∃ printed, m'.sink.bytes = m.sink.bytes ++ printed := by
  unfold step
  split
  · exact (Kept.refl m).output
  · split
    · exact (Kept.refl m).output
    · rename_i frame callers hframes
      split
      · rename_i i _
        have hkeeps := perform_keeps (hosts.during m.steps)
          { m with steps := m.steps + 1, frames := { frame with ip := frame.ip + i.size } :: m.frames.tail }
          { frame with ip := frame.ip + i.size } i
        rw [hframes] at hkeeps ⊢
        dsimp only
        generalize perform (hosts.during m.steps) _ _ i = s at hkeeps ⊢
        cases s with
        | next m' => exact ⟨hkeeps.limits, hkeeps.steps, hkeeps.output⟩
        | done m' => exact hkeeps.output
        | fault m' reason => exact hkeeps.output
      · exact (Kept.refl m).output
      · exact (Kept.refl m).output
      · exact (Kept.refl m).output

/-- The output of a run only grows. -/
theorem exists_bytes_advance (hosts : Hosts) (m : Machine) (fuel : Nat) :
    ∃ printed, (advance hosts m fuel).machine.sink.bytes = m.sink.bytes ++ printed := by
  induction fuel generalizing m with
  | zero => exact (Kept.refl m).output
  | succ fuel ih =>
    have hkeeps := step_keeps hosts m
    unfold advance
    cases hstep : step hosts m with
    | next m' =>
      rw [hstep] at hkeeps
      exact exists_append_trans hkeeps.2.2 (ih m')
    | done m' =>
      rw [hstep] at hkeeps
      exact hkeeps
    | fault m' reason =>
      rw [hstep] at hkeeps
      exact hkeeps

/-- The report of an error follows the output. -/
theorem exists_bytes_outcome {progress : Progress} {o : Outcome} (h : progress.outcome? = some o) :
    ∃ notice, o.machine.sink.bytes = progress.machine.sink.bytes ++ notice := by
  cases progress with
  | running m => cases h
  | done m =>
    cases h
    exact (Kept.refl m).output
  | failed m reason =>
    cases h
    exact exists_bytes_write m.sink _

/-- The report of an error changes neither the globals nor the limits. -/
theorem unchanged_outcome {progress : Progress} {o : Outcome} (h : progress.outcome? = some o) :
    o.machine.globals = progress.machine.globals ∧ o.machine.limits = progress.machine.limits := by
  cases progress with
  | running m => cases h
  | done m | failed m reason =>
    cases h
    exact ⟨rfl, rfl⟩

/-! ### Steps under larger limits -/

section

variable (m limits)

@[simp] theorem stack_withLimits : (m.withLimits limits).stack = m.stack := rfl

@[simp] theorem frames_withLimits : (m.withLimits limits).frames = m.frames := rfl

@[simp] theorem globals_withLimits : (m.withLimits limits).globals = m.globals := rfl

@[simp] theorem sink_withLimits : (m.withLimits limits).sink = m.sink := rfl

@[simp] theorem steps_withLimits : (m.withLimits limits).steps = m.steps := rfl

@[simp] theorem limits_withLimits : (m.withLimits limits).limits = limits := rfl

@[simp] theorem peek?_withLimits (distance : Nat) : (m.withLimits limits).peek? distance = m.peek? distance :=
  rfl

/-- What does the same amid all surroundings does the same under other limits. -/
theorem Step.withLimits_of_amid (act : Machine → Step)
    (h : ∀ limits sink, act (m.amid limits sink) = (act m).amid limits sink) :
    act (m.withLimits limits) = (act m).withLimits limits := by
  have hself : act m = (act m).amid m.limits m.sink := h m.limits m.sink
  calc act (m.withLimits limits) = (act m).amid limits m.sink := h limits m.sink
    _ = ((act m).amid m.limits m.sink).withLimits limits := by cases act m <;> rfl
    _ = (act m).withLimits limits := by rw [← hself]

end

/-- A step that its limits stop, before anything was written. -/
def Step.Cut (m : Machine) (s : Step) : Prop := ∃ m' fault, s = .fault m' fault ∧ fault.IsLimit ∧
    m'.sink = m.sink

/-- Whether a function may be called depends on the limit of calls, and nothing else does. -/
theorem callFunction_withLimits (hle : m.limits.maxFrames ≤ limits.maxFrames) (id : ObjectId) (f : Function)
    (count : UInt8) :
    (m.callFunction id f count).Cut m ∨
      (m.withLimits limits).callFunction id f count = (m.callFunction id f count).withLimits limits := by
  by_cases harity : count ≠ f.arity
  · right
    rw [callFunction, callFunction, if_pos harity, if_pos harity]
    rfl
  · by_cases hframes : m.limits.maxFrames ≤ m.frames.length
    · left
      refine ⟨m, .stackOverflow, ?_, trivial, rfl⟩
      rw [callFunction, if_neg harity, if_pos hframes]
    · right
      have hframes' : ¬(m.withLimits limits).limits.maxFrames ≤ (m.withLimits limits).frames.length := by
        intro hle'
        exact hframes (Nat.le_trans hle hle')
      rw [callFunction, callFunction, if_neg harity, if_neg harity, if_neg hframes, if_neg hframes',
        stack_withLimits]
      split <;> rfl

theorem call_withLimits (hle : m.limits.maxFrames ≤ limits.maxFrames) (count : UInt8) :
    (call host m count).Cut m ∨ call host (m.withLimits limits) count =
      (call host m count).withLimits limits := by
  simp only [call, peek?_withLimits]
  rcases m.peek? count.toNat with _ | _ | _ | _ | _ | ⟨id, f⟩ | ⟨id, native⟩
  · exact .inr rfl
  · exact .inr rfl
  · exact .inr rfl
  · exact .inr rfl
  · exact .inr rfl
  · exact callFunction_withLimits hle id f count
  · refine .inr (Step.withLimits_of_amid m limits (callNative host · native count) fun l s => ?_)
    exact callNative_amid m l s native count

theorem perform_withLimits (hle : m.limits.maxFrames ≤ limits.maxFrames) (frame : Frame) (i : Instruction) :
    (perform host m frame i).Cut m ∨
      perform host (m.withLimits limits) frame i = (perform host m frame i).withLimits limits := by
  by_cases hcall : ∃ count, i = .call count
  · obtain ⟨count, rfl⟩ := hcall
    exact call_withLimits hle count
  · right
    by_cases hprint : i = .print
    · subst hprint
      rw [perform, perform, peek?_withLimits]
      cases m.peek? 0 with
      | none => rfl
      | some value =>
        simp only [sink_withLimits]
        rcases m.sink.write (value.text ++ "\n") with ⟨_ | _, sink⟩ <;> rfl
    · exact Step.withLimits_of_amid m limits (perform host · frame i) fun l s =>
        perform_amid m l s frame (fun count heq => hcall ⟨count, heq⟩) hprint

/-- A step under larger limits is the same step, unless its limits stop it. -/
theorem step_withLimits (hosts : Hosts) (h : m.limits.Within limits) :
    (step hosts m).Cut m ∨ step hosts (m.withLimits limits) = (step hosts m).withLimits limits := by
  cases hsteps : m.limits.maxSteps.filter (· ≤ m.steps) with
  | some limit =>
    left
    refine ⟨m, .stepLimit limit, ?_, trivial, rfl⟩
    rw [step, hsteps]
  | none =>
    have hsteps' : (m.withLimits limits).limits.maxSteps.filter (· ≤ (m.withLimits limits).steps) = none :=
      h.filter_eq_none hsteps
    rw [step, step, hsteps, hsteps', frames_withLimits]
    cases hframes : m.frames with
    | nil => exact .inr rfl
    | cons frame callers =>
      dsimp only
      cases Instruction.read frame.function.chunk.code frame.ip with
      | instruction i =>
        exact perform_withLimits
          (m := { m with steps := m.steps + 1, frames := { frame with ip := frame.ip + i.size } :: callers })
            h.maxFrames _ i
      | unknown | truncated | pastEnd => exact .inr rfl

/-! ### Runs under larger limits -/

/-- A run under larger limits is the same run, unless its limits stop it; and then it had come as far before. -/
theorem advance_withLimits (hosts : Hosts) (h : m.limits.Within limits) (fuel : Nat) :
    (∃ m₁ fault, advance hosts m fuel = .failed m₁ fault ∧ fault.IsLimit ∧
      ∃ k ≤ fuel, ∃ m₂, advance hosts (m.withLimits limits) k = .running m₂ ∧ m₂.sink = m₁.sink) ∨
    advance hosts (m.withLimits limits) fuel = (advance hosts m fuel).withLimits limits := by
  induction fuel generalizing m with
  | zero => exact .inr rfl
  | succ fuel ih =>
    have hkeeps := step_keeps hosts m
    rcases step_withLimits hosts h with ⟨m₁, fault, hstep, hfault, hsink⟩ | hsame
    · left
      refine ⟨m₁, fault, ?_, hfault, 0, Nat.zero_le _, m.withLimits limits, rfl, hsink.symm⟩
      rw [advance, hstep]
    · rw [advance, advance, hsame]
      cases hstep : step hosts m with
      | next m' =>
        rw [hstep] at hkeeps hsame
        have h' : m'.limits.Within limits := by
          rw [hkeeps.1]
          exact h
        rcases ih h' with ⟨m₁, fault, hfailed, hfault, k, hk, m₂, hrunning, hsink⟩ | hsame'
        · left
          refine ⟨m₁, fault, hfailed, hfault, k + 1, Nat.succ_le_succ hk, m₂, ?_, hsink⟩
          rw [advance, hsame]
          exact hrunning
        · exact .inr hsame'
      | done m' => exact .inr rfl
      | fault m' reason => exact .inr rfl

theorem start_withLimits (h : m.limits.Within limits) (script : Function) :
    (∃ m₁ fault, m.start script = .failed m₁ fault ∧ fault.IsLimit ∧ m₁.sink = m.sink) ∨
    (m.withLimits limits).start script = (m.start script).withLimits limits := by
  have hcall := callFunction_withLimits
    (m := { m.reset with nextOrigin := m.nextOrigin + 1 }.push (.function ⟨m.nextOrigin, []⟩ script))
      h.maxFrames
    ⟨m.nextOrigin, []⟩ script 0
  rcases hcall with ⟨m₁, fault, hcut, hfault, hsink⟩ | hsame
  · left
    refine ⟨m₁, fault, ?_, hfault, hsink⟩
    rw [start, hcut]
  · right
    have hstart : (m.withLimits limits).start script =
        match ({ m.reset with nextOrigin := m.nextOrigin + 1 }.push
        (.function ⟨m.nextOrigin, []⟩ script)).withLimits limits |>.callFunction ⟨m.nextOrigin, []⟩ script 0
          with
      | .next m => .running m
      | .done m => .done m
      | .fault m fault => .failed m fault := rfl
    rw [hstart, hsame, start]
    generalize Machine.callFunction _ _ script 0 = s
    cases s <;> rfl

/-- A run of a script begins with no steps, under the limits of its machine. -/
theorem of_start_running {script : Function} (h : m.start script = .running m') :
    m'.limits = m.limits ∧ m'.steps = 0 := by
  rw [start_eq] at h
  split at h
  · cases h
  · split at h
    · cases h
    · cases h
      exact ⟨rfl, rfl⟩

theorem exists_bytes_start (m : Machine) (script : Function) :
    ∃ printed, (m.start script).machine.sink.bytes = m.sink.bytes ++ printed := by
  rw [start_eq]
  split
  · exact (Kept.refl m).output
  · split <;> exact (Kept.refl m).output

/-- The beginning of a run changes neither the globals nor the limits. -/
theorem unchanged_start (m : Machine) (script : Function) :
    (m.start script).machine.globals = m.globals ∧ (m.start script).machine.limits = m.limits := by
  rw [start_eq]
  split
  · exact ⟨rfl, rfl⟩
  · split <;> exact ⟨rfl, rfl⟩

theorem exists_bytes_progress (hosts : Hosts) (fuel : Nat) (m : Machine) (script : Function) :
    ∃ printed, (progress hosts fuel m script).machine.sink.bytes = m.sink.bytes ++ printed := by
  have hbegin := exists_bytes_start m script
  unfold progress
  cases hstart : m.start script with
  | running m' =>
    rw [hstart] at hbegin
    exact exists_append_trans hbegin (exists_bytes_advance hosts m' fuel)
  | done m' =>
    rw [hstart] at hbegin
    exact hbegin
  | failed m' reason =>
    rw [hstart] at hbegin
    exact hbegin

/-- What a run has written stays at the beginning of its output. -/
theorem exists_bytes_later (hosts : Hosts) (m : Machine) (script : Function) {later : Nat}
    (hlater : fuel ≤ later) :
    ∃ printed, (progress hosts later m script).machine.sink.bytes =
      (progress hosts fuel m script).machine.sink.bytes ++ printed := by
  obtain ⟨rest, rfl⟩ := Nat.exists_eq_add_of_le hlater
  unfold progress
  cases m.start script with
  | done m' => exact (Kept.refl m').output
  | failed m' reason => exact (Kept.refl m').output
  | running m' =>
    dsimp only
    rw [advance_add]
    cases advance hosts m' fuel with
    | running m₁ => exact exists_bytes_advance hosts m₁ rest
    | done m₁ => exact (Kept.refl m₁).output
    | failed m₁ reason => exact (Kept.refl m₁).output

/-- Runs under smaller and larger limits: they are the same, or the limits stop the first, and what it had
    written before is the beginning of what the second one has written. -/
theorem progress_withLimits (hosts : Hosts) (h : m.limits.Within limits) (script : Function) (fuel : Nat) :
    (∃ m₁ fault, progress hosts fuel m script = .failed m₁ fault ∧ fault.IsLimit ∧
      ∃ printed, (progress hosts fuel (m.withLimits limits) script).machine.sink.bytes =
        m₁.sink.bytes ++ printed) ∨
    progress hosts fuel (m.withLimits limits) script = (progress hosts fuel m script).withLimits limits := by
  rcases start_withLimits h script with ⟨m₁, fault, hstart, hfault, hsink⟩ | hsame
  · left
    refine ⟨m₁, fault, ?_, hfault, ?_⟩
    · rw [progress, hstart]
    · rw [hsink]
      exact exists_bytes_progress hosts fuel (m.withLimits limits) script
  · rw [progress, progress, hsame]
    cases hstart : m.start script with
    | done m' => exact .inr rfl
    | failed m' reason => exact .inr rfl
    | running m' =>
      obtain ⟨hlimits, -⟩ := of_start_running hstart
      rcases advance_withLimits hosts (hlimits ▸ h) fuel with
        ⟨m₁, fault, hfailed, hfault, k, hk, m₂, hrunning, hsink⟩ | hsame'
      · left
        refine ⟨m₁, fault, hfailed, hfault, ?_⟩
        obtain ⟨rest, rfl⟩ := Nat.exists_eq_add_of_le hk
        show ∃ printed, (advance hosts (m'.withLimits limits) (k + rest)).machine.sink.bytes = _
        rw [advance_of_running hrunning, ← hsink]
        exact exists_bytes_advance hosts m₂ rest
      · exact .inr hsame'

theorem outcome?_withLimits (progress : Progress) (limits : Limits) : (progress.withLimits limits).outcome? =
    progress.outcome?.map fun o => { o with machine := o.machine.withLimits limits } := by
  cases progress <;> rfl

/-! ### Runs under a limit of steps -/

/-- The call from which the next step fetches an instruction. Nothing is fetched once the limit of
    steps is reached. -/
def fetch? (m : Machine) : Option Frame :=
  match m.limits.maxSteps.filter (· ≤ m.steps) with
  | some _ => none
  | none => m.frames.head?

/-- The calls from which `m` fetches instructions in at most `fuel` steps, one for each. -/
def fetches (hosts : Hosts) (m : Machine) : (fuel : Nat) → List Frame
  | 0 => []
  | fuel + 1 =>
    match m.fetch?, step hosts m with
    | none, _ => []
    | some frame, .next m => frame :: fetches hosts m fuel
    | some frame, _ => [frame]

theorem filter_steps_eq_some (hsteps : m.limits.maxSteps = some n) (hle : n ≤ m.steps) :
    m.limits.maxSteps.filter (· ≤ m.steps) = some n := by
  rw [hsteps, Option.filter_eq_some_iff]
  exact ⟨rfl, by simpa using hle⟩

/-- As many instructions are fetched as are left of the limit. -/
theorem length_fetches_le (hosts : Hosts) (hsteps : m.limits.maxSteps = some n) (fuel : Nat) :
    (fetches hosts m fuel).length ≤ n - m.steps := by
  induction fuel generalizing m with
  | zero => exact Nat.zero_le _
  | succ fuel ih =>
    have hkeeps := step_keeps hosts m
    rw [fetches]
    by_cases hlt : m.steps < n
    · split
      · exact Nat.zero_le _
      · rename_i frame m' hfetch hstep
        rw [hstep] at hkeeps
        obtain ⟨hlimits, hcount, -⟩ := hkeeps
        have hrest := ih (m := m') (by rw [hlimits, hsteps])
        rw [hcount] at hrest
        rw [List.length_cons]
        omega
      · rw [List.length_singleton]
        omega
    · have hfetch : m.fetch? = none := by
        rw [fetch?, filter_steps_eq_some hsteps (Nat.le_of_not_lt hlt)]
      rw [hfetch]
      exact Nat.zero_le _

/-- The limit is reached after as many steps as are left of it, and one more ends the run. -/
theorem advance_ends (hsteps : m.limits.maxSteps = some n) (hfuel : n - m.steps < fuel) :
    ∃ o, (advance hosts m fuel).outcome? = some o := by
  induction fuel generalizing m with
  | zero => exact absurd hfuel (Nat.not_lt_zero _)
  | succ fuel ih =>
    have hkeeps := step_keeps hosts m
    by_cases hlt : m.steps < n
    · rw [advance]
      cases hstep : step hosts m with
      | next m' =>
        rw [hstep] at hkeeps
        obtain ⟨hlimits, hcount, -⟩ := hkeeps
        exact ih (by rw [hlimits, hsteps]) (by omega)
      | done m' => exact ⟨_, rfl⟩
      | fault m' reason => exact ⟨_, rfl⟩
    · rw [advance, step, filter_steps_eq_some hsteps (Nat.le_of_not_lt hlt)]
      exact ⟨_, rfl⟩

/-- The calls from which a run of a script fetches instructions in at most `fuel` steps. -/
def runFetches (hosts : Hosts) (fuel : Nat) (m : Machine) (script : Function) : List Frame :=
  match m.start script with
  | .running m => fetches hosts m fuel
  | _ => []

theorem length_runFetches_le (hsteps : m.limits.maxSteps = some n) (fuel : Nat) (script : Function) :
    (runFetches hosts fuel m script).length ≤ n := by
  unfold runFetches
  cases hstart : m.start script with
  | running m' =>
    obtain ⟨hlimits, hzero⟩ := of_start_running hstart
    have hle := length_fetches_le hosts (m := m') (by rw [hlimits, hsteps]) fuel
    rwa [hzero] at hle
  | done m' => exact Nat.zero_le _
  | failed m' reason => exact Nat.zero_le _

theorem run_ends (hosts : Hosts) (hsteps : m.limits.maxSteps = some n) (script : Function) :
    ∃ o, run hosts (n + 1) m script = some o := by
  rw [run_eq, progress]
  cases hstart : m.start script with
  | running m' =>
    obtain ⟨hlimits, hzero⟩ := of_start_running hstart
    exact advance_ends (by rw [hlimits, hsteps]) (by rw [hzero]; exact Nat.lt_succ_self _)
  | done m' => exact ⟨_, rfl⟩
  | failed m' reason => exact ⟨_, rfl⟩

/-! ### Limits only cut runs short -/

/-- A run that a limit has stopped. -/
def Outcome.StoppedByLimit (o : Outcome) : Prop := ∃ error, o.result = .error error ∧ error.fault.IsLimit

theorem Outcome.StoppedByLimit.exists_failed {script : Function} {o : Outcome} (h : o.StoppedByLimit)
    (hrun : run hosts fuel m script = some o) :
    ∃ m₁ fault, progress hosts fuel m script = .failed m₁ fault ∧ o = m₁.fail fault := by
  obtain ⟨error, herror, -⟩ := h
  rw [run_eq] at hrun
  cases hprogress : progress hosts fuel m script with
  | running m₁ =>
    rw [hprogress] at hrun
    cases hrun
  | done m₁ =>
    rw [hprogress] at hrun
    cases hrun
    cases herror
  | failed m₁ fault =>
    rw [hprogress] at hrun
    cases hrun
    exact ⟨m₁, fault, rfl, rfl⟩

/-- Of two runs of a function from one state, the second under larger limits. If the first one ends and no
    limit has stopped it, the second one ends alike, in the same state. If a limit has stopped it, what it had
    written before the error is the beginning of what the second one writes, at any later point and at its
    end. And a limit of steps lets every run end, after it has fetched no more instructions than that. -/
theorem limits_only_cut {limits larger : Limits} (h : limits.Within larger) (hosts : Hosts) (m : Machine)
    (script : Function) :
    (∀ fuel o, run hosts fuel (m.withLimits limits) script = some o → ¬o.StoppedByLimit →
      run hosts fuel (m.withLimits larger) script = some { o with machine := o.machine.withLimits larger }) ∧
    (∀ fuel o, run hosts fuel (m.withLimits limits) script = some o → o.StoppedByLimit →
      ∃ m₁ fault, progress hosts fuel (m.withLimits limits) script = .failed m₁ fault ∧ o = m₁.fail fault ∧
        (∀ later, fuel ≤ later →
          ∃ printed, (progress hosts later (m.withLimits larger) script).machine.sink.bytes =
            m₁.sink.bytes ++ printed) ∧
        ∀ later o', run hosts later (m.withLimits larger) script = some o' →
          ∃ printed, o'.machine.sink.bytes = m₁.sink.bytes ++ printed) ∧
    ∀ n, limits.maxSteps = some n →
      (∃ o, run hosts (n + 1) (m.withLimits limits) script = some o) ∧
        ∀ fuel, (runFetches hosts fuel (m.withLimits limits) script).length ≤ n := by
  have hprogress := progress_withLimits hosts (m := m.withLimits limits) h script
  refine ⟨fun fuel o hrun hfree => ?_, fun fuel o hrun hstopped => ?_, fun n hn => ⟨?_, fun fuel => ?_⟩⟩
  · rw [run_eq] at hrun ⊢
    rcases hprogress fuel with ⟨m₁, fault, hfailed, hfault, -⟩ | hsame
    · rw [hfailed] at hrun
      cases hrun
      exact absurd ⟨_, rfl, hfault⟩ hfree
    · have hsame' : progress hosts fuel (m.withLimits larger) script = _ := hsame
      rw [hsame', outcome?_withLimits, hrun]
      rfl
  · obtain ⟨m₁, fault, hfailed, rfl⟩ := hstopped.exists_failed hrun
    have hnow : ∃ printed, (progress hosts fuel (m.withLimits larger) script).machine.sink.bytes =
        m₁.sink.bytes ++ printed := by
      rcases hprogress fuel with ⟨m₂, reason, hfailed', -, hprinted⟩ | hsame
      · cases hfailed.symm.trans hfailed'
        exact hprinted
      · have hsame' : progress hosts fuel (m.withLimits larger) script = _ := hsame
        rw [hsame', hfailed]
        exact (Kept.refl m₁).output
    have hlater : ∀ later, fuel ≤ later → ∃ printed,
        (progress hosts later (m.withLimits larger) script).machine.sink.bytes = m₁.sink.bytes ++ printed := by
      intro later hle
      exact exists_append_trans hnow (exists_bytes_later hosts _ script hle)
    refine ⟨m₁, fault, hfailed, rfl, hlater, fun later o' hrun' => ?_⟩
    have hmore := run_add (k := fuel) hrun'
    rw [run_eq] at hmore
    exact exists_append_trans (hlater (later + fuel) (Nat.le_add_left fuel later)) (exists_bytes_outcome hmore)
  · exact run_ends hosts hn script
  · exact length_runFetches_le hn fuel script

/-- A function that calls itself for ever: with three calls it has printed twice, and so it begins
    without such a limit. -/
theorem limits_only_cut_recursion : ∃ script m₁ fault,
    compile "fun f() { print 1; f(); } f();" = .ok script ∧
    progress (Host.standard 0) 40 (({} : Machine).withLimits ⟨3, some 40⟩) script = .failed m₁ fault ∧
    m₁.sink.bytes = "1\n1\n".toUTF8 ∧
    (∀ later, 40 ≤ later → ∃ printed,
      (progress (Host.standard 0) later (({} : Machine).withLimits ⟨64, none⟩) script).machine.sink.bytes =
        m₁.sink.bytes ++ printed) ∧
    ∀ fuel, (runFetches (Host.standard 0) fuel (({} : Machine).withLimits ⟨3, some 40⟩) script).length ≤
      40 := by
  have hstops : ((compile "fun f() { print 1; f(); } f();").toOption.any fun script =>
      (run (Host.standard 0) 40 (({} : Machine).withLimits ⟨3, some 40⟩) script).any fun o =>
        decide (o.result.mapError RuntimeError.fault = .error .stackOverflow)) = true := by decide +kernel
  obtain ⟨script, hscript, hruns⟩ := exists_ok_of_any hstops
  obtain ⟨o, hrun, hresult⟩ := (Option.any_eq_true _ _).mp hruns
  have hstopped : o.StoppedByLimit := by
    cases hok : o.result with
    | ok _ =>
      rw [hok] at hresult
      cases of_decide_eq_true hresult
    | error error =>
      rw [hok] at hresult
      have hfault : error.fault = .stackOverflow := Except.error.inj (of_decide_eq_true hresult)
      exact ⟨error, hok, by rw [hfault]; exact trivial⟩
  have hwithin : Limits.Within ⟨3, some 40⟩ ⟨64, none⟩ := ⟨by decide, fun n' hn' => by cases hn'⟩
  obtain ⟨-, hcut, hends⟩ := limits_only_cut hwithin (Host.standard 0) {} script
  obtain ⟨m₁, fault, hfailed, -, hlater, -⟩ := hcut 40 o hrun hstopped
  have hprinted : ((compile "fun f() { print 1; f(); } f();").toOption.any fun script => decide
      ((progress (Host.standard 0) 40 (({} : Machine).withLimits ⟨3, some 40⟩) script).machine.sink.bytes =
        "1\n1\n".toUTF8)) = true := by decide +kernel
  obtain ⟨script', hscript', hbytes⟩ := exists_ok_of_any hprinted
  cases hscript.symm.trans hscript'
  rw [hfailed] at hbytes
  exact ⟨script, m₁, fault, hscript, hfailed, of_decide_eq_true hbytes, hlater, (hends 40 rfl).2⟩

end Machine

end Lox
