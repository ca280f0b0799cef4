import Lox.Proofs.Flow.Function
import Lox.Proofs.Machine.Locality

/-! # Calls and returns

While a call is active, the values below it stay as they are. So when it returns, the stack of its caller is
the one from before the callee was pushed, with the result on top. -/

namespace Lox.Machine

variable {S : Function → Prop} {depth : Function → Nat → Option Nat} {host : Host} {hosts : Hosts}
    {m m' : Machine}

/-! ### The active calls -/

/-- How a step changes the active calls and the stack below them. -/
inductive Moves (m : Machine) (frame : Frame) (callers : List Frame) (i : Instruction) (m' : Machine) : Prop
  /-- The innermost call goes on where its instruction leads. -/
  | stay (ip : Nat) (hleads : ∀ offset, frame.ip = offset + i.size → ip ∈ i.leads offset)
    (hframes : m'.frames = { frame with ip } :: callers)
  /-- It calls a function, whose arguments are on the stack. -/
  | enter (count : UInt8) (callee : Frame) (hcall : i = .call count) (hentry : callee.ip = 0)
    (hroom : callers.length + 1 < m.limits.maxFrames) (hslots : callee.slots = m.stack.size - (count.toNat + 1))
    (hframes : m'.frames = callee :: frame :: callers) (hstack : m'.stack = m.stack)
  /-- It returns a result. -/
  | leave (result : Value) (hret : i = .ret) (hframes : m'.frames = callers)
    (hstack : m'.stack = (m.stack.pop.shrink frame.slots).push result)

section

variable {frame : Frame} {callers : List Frame} {i : Instruction}

theorem moves_same (hnext : ∀ offset, offset + i.size ∈ i.leads offset) (hframes : m.frames = frame :: callers)
    (h : m'.frames = m.frames) : Moves m frame callers i m' :=
  .stay frame.ip (fun offset hip => hip ▸ hnext offset) (by rw [h, hframes])

theorem moves_unary (hnext : ∀ offset, offset + i.size ∈ i.leads offset) (hframes : m.frames = frame :: callers)
    {f : Value → Except Fault Value} (h : m.unary f = .next m') : Moves m frame callers i m' := by
  unfold Machine.unary at h
  split at h
  · cases h
  · split at h
    · cases h
      exact moves_same hnext hframes rfl
    · cases h

theorem moves_binary (hnext : ∀ offset, offset + i.size ∈ i.leads offset)
    (hframes : m.frames = frame :: callers)
    {f : Value → Value → Except Fault Value} (h : m.binary f = .next m') : Moves m frame callers i m' := by
  unfold Machine.binary at h
  split at h
  · split at h
    · cases h
      exact moves_same hnext hframes rfl
    · cases h
  · cases h

theorem moves_call (hframes : m.frames = frame :: callers) {count : UInt8}
    (h : call host m count = .next m') : Moves m frame callers (.call count) m' := by
  unfold Machine.call at h
  split at h
  · cases h
  · unfold Machine.callFunction at h
    split at h
    · cases h
    · split at h
      · cases h
      · rename_i hroom
        split at h
        · cases h
        · cases h
          rw [hframes] at hroom
          exact .enter count _ rfl rfl (Nat.lt_of_not_le hroom) rfl (by rw [hframes]) rfl
  · unfold Machine.callNative at h
    split at h
    · cases h
    · dsimp only at h
      split at h
      · cases h
        exact moves_same (fun _ => List.mem_cons_self) hframes rfl
      · cases h
  · cases h

theorem moves_leave (hframes : m.frames = frame :: callers)
    (h : m.leave = .next m') : Moves m frame callers .ret m' := by
  unfold Machine.leave at h
  rw [hframes] at h
  split at h
  · cases h
  · rename_i heq
    cases heq
  · cases h
  · rename_i hpeek heq
    cases heq
    cases h
    exact .leave _ rfl rfl rfl

theorem moves_perform (hframes : m.frames = frame :: callers)
    (h : perform host m frame i = .next m') : Moves m frame callers i m' := by
  cases i with
  | constant index | getLocal slot =>
    rw [perform] at h
    split at h
    · cases h
      exact moves_same (fun _ => List.mem_cons_self) hframes rfl
    · cases h
  | nil | trueValue | falseValue =>
    cases h
    exact moves_same (fun _ => List.mem_cons_self) hframes rfl
  | pop =>
    rw [perform] at h
    split at h
    · cases h
    · cases h
      exact moves_same (fun _ => List.mem_cons_self) hframes rfl
  | setLocal slot =>
    rw [perform] at h
    split at h
    · split at h
      · cases h
        exact moves_same (fun _ => List.mem_cons_self) hframes rfl
      · cases h
    · cases h
  | getGlobal index | defineGlobal index =>
    rw [perform] at h
    split at h
    · cases h
    · split at h
      · cases h
        exact moves_same (fun _ => List.mem_cons_self) hframes rfl
      · cases h
  | setGlobal index =>
    rw [perform] at h
    split at h
    · cases h
    · split at h
      · cases h
      · split at h
        · cases h
          exact moves_same (fun _ => List.mem_cons_self) hframes rfl
        · cases h
  | equal | greater | less | add | subtract | multiply | divide =>
    rw [perform] at h
    exact moves_binary (fun _ => List.mem_cons_self) hframes h
  | logicalNot | negate =>
    rw [perform] at h
    exact moves_unary (fun _ => List.mem_cons_self) hframes h
  | print =>
    rw [perform] at h
    split at h
    · cases h
    · split at h
      · cases h
        exact moves_same (fun _ => List.mem_cons_self) hframes rfl
      · cases h
  | jump distance =>
    cases h
    refine .stay (frame.ip + distance.toNat) (fun offset hip => ?_) (by rw [goTo, hframes]; rfl)
    rw [hip]
    exact List.mem_cons_self
  | jumpIfFalse distance =>
    rw [perform] at h
    split at h
    · cases h
    · cases h
      split
      · refine .stay (frame.ip + distance.toNat) (fun offset hip => ?_) (by rw [goTo, hframes]; rfl)
        rw [hip]
        exact List.mem_cons_of_mem _ List.mem_cons_self
      · exact moves_same (fun _ => List.mem_cons_self) hframes rfl
  | loop distance =>
    rw [perform] at h
    split at h
    · cases h
      refine .stay (frame.ip - distance.toNat) (fun offset hip => ?_) (by rw [goTo, hframes]; rfl)
      rw [hip]
      exact List.mem_cons_self
    · cases h
  | call count => exact moves_call hframes h
  | ret => exact moves_leave hframes h

/-- How a step that goes on changes the active calls: it has read an instruction of the innermost one. -/
theorem moves_step (hframes : m.frames = frame :: callers) (hstep : step hosts m = .next m') :
    ∃ i, Instruction.read frame.function.chunk.code frame.ip = .instruction i ∧
      Moves m { frame with ip := frame.ip + i.size } callers i m' := by
  unfold step at hstep
  split at hstep
  · cases hstep
  · rw [hframes] at hstep
    dsimp only at hstep
    split at hstep
    · rename_i i hread
      refine ⟨i, hread, ?_⟩
      cases moves_perform rfl hstep with
      | stay ip hleads hframes => exact .stay ip hleads hframes
      | enter count callee hcall hentry hroom hslots hframes hstack =>
        exact .enter count callee hcall hentry hroom hslots hframes hstack
      | leave result hret hframes hstack => exact .leave result hret hframes hstack
    · cases hstep
    · cases hstep
    · cases hstep

end

/-! ### What is below a call -/

/-- A call is active above the values `base` and the calls `outer`. -/
structure Inside (base : Array Value) (outer : List Frame) (m : Machine) : Prop where
  frames : ∃ inner callee, m.frames = inner ++ callee :: outer ∧ callee.slots = base.size ∧
    ∀ frame ∈ inner, base.size ≤ frame.slots
  stack : ∃ high, m.stack = base ++ high

theorem Inside.length_lt {base : Array Value} {outer : List Frame} (h : Inside base outer m) :
    outer.length < m.frames.length := by
  obtain ⟨inner, callee, hframes, -, -⟩ := h.frames
  rw [hframes, List.length_append, List.length_cons]
  omega

/-- A step leaves the values below the innermost call as they are. -/
theorem Disciplined.keeps_below (hfamily : Function.Family S depth) (h : Disciplined S depth m) {frame : Frame}
    {callers : List Frame} (hframes : m.frames = frame :: callers) {base high : Array Value}
    (hstack : m.stack = base ++ high)
    (hbase : base.size ≤ frame.slots) (hstep : Machine.step hosts m = .next m') :
    ∃ high', m'.stack = base ++ high' := by
  have hstacked := h.stacked
  rw [hframes] at hstacked
  obtain ⟨⟨-, height, -, hsize⟩, -⟩ := hstacked
  have hle : frame.slots ≤ m.stack.size := by omega
  let middle := high.extract 0 (frame.slots - base.size)
  have hlow : (base ++ middle).size = frame.slots := by
    rw [hstack, Array.size_append] at hle
    rw [Array.size_append, Array.size_extract]
    omega
  have hsplit : m.stack = base ++ middle ++ high.extract (frame.slots - base.size) high.size := by
    rw [hstack, Array.size_append] at hle
    rw [hstack, Array.append_assoc, Array.extract_append_extract, Nat.min_eq_left (Nat.zero_le _),
      Nat.max_eq_right (by omega), Array.extract_size]
  have hsame : m.withStack (base ++ middle ++ high.extract (frame.slots - base.size) high.size) = m := by
    rw [← hsplit]
    rfl
  have halike : Step.Alike (base ++ middle) (base ++ middle) (Machine.step hosts m)
      (Machine.step hosts (m.withStack _)) :=
    h.step_alike hfamily hframes hsplit hlow hlow
  rw [hsame, hstep] at halike
  generalize hnext : Step.next m' = next at halike
  cases halike with
  | next m₁ high₁ =>
    cases hnext
    exact ⟨middle ++ high₁, Array.append_assoc⟩
  | done => cases hnext
  | fault => cases hnext

theorem Disciplined.moves (hfamily : Function.Family S depth) (h : Disciplined S depth m) {frame : Frame}
    {callers : List Frame} (hframes : m.frames = frame :: callers) (hstep : Machine.step hosts m = .next m') :
    ∃ i height, i.takes ≤ height ∧ m.stack.size = frame.slots + height ∧
      Moves m { frame with ip := frame.ip + i.size } callers i m' := by
  have hstacked := h.stacked
  rw [hframes] at hstacked
  obtain ⟨⟨hfunction, height, hdepth, hsize⟩, -⟩ := hstacked
  obtain ⟨i, hread, hflows⟩ := (hfamily.flows hfunction).inside hdepth
  obtain ⟨j, hread', hmoves⟩ := moves_step hframes hstep
  cases hread.symm.trans hread'
  exact ⟨i, height, hflows.takes, hsize, hmoves⟩

/-- A step inside a call stays inside, or returns from it. -/
theorem Inside.step (hfamily : Function.Family S depth) (hm : Disciplined S depth m) {base : Array Value}
    {outer : List Frame} (h : Inside base outer m) (hstep : Machine.step hosts m = .next m') :
    Inside base outer m' ∨ m'.frames = outer ∧ ∃ result, m'.stack = base.push result := by
  obtain ⟨⟨inner, callee, hframes, hcallee, hinner⟩, high, hstack⟩ := h
  cases inner with
  | nil =>
    obtain ⟨high', hstack'⟩ := hm.keeps_below hfamily hframes hstack (Nat.le_of_eq hcallee.symm) hstep
    obtain ⟨i, height, htakes, hsize, hmoves⟩ := hm.moves hfamily hframes hstep
    cases hmoves with
    | stay ip _ hframes' =>
      exact Or.inl ⟨⟨[], { callee with ip }, hframes', hcallee, fun _ h => absurd h List.not_mem_nil⟩, high',
        hstack'⟩
    | enter count new hcall _ _ hslots hframes' _ =>
      refine Or.inl ⟨⟨[new], _, hframes', hcallee, fun frame hframe => ?_⟩, high', hstack'⟩
      rw [List.mem_singleton.mp hframe, hslots, ← hcallee]
      rw [hcall, Instruction.takes] at htakes
      omega
    | leave result hret hframes' hstack'' =>
      refine Or.inr ⟨hframes', result, ?_⟩
      rw [hret, Instruction.takes] at htakes
      have hhigh : 0 < high.size := by
        rw [hstack, Array.size_append, hcallee] at hsize
        omega
      rw [hstack'', hstack, pop_append base hhigh]
      dsimp only
      rw [hcallee, ← Nat.add_zero base.size, shrink_append]
      simp
  | cons frame inner =>
    have hbase : base.size ≤ frame.slots := hinner frame List.mem_cons_self
    have hrest : ∀ other ∈ inner, base.size ≤ other.slots :=
      fun other hother => hinner other (List.mem_cons_of_mem _ hother)
    obtain ⟨high', hstack'⟩ := hm.keeps_below hfamily hframes hstack hbase hstep
    obtain ⟨i, height, htakes, hsize, hmoves⟩ := hm.moves hfamily hframes hstep
    refine Or.inl ⟨?_, high', hstack'⟩
    cases hmoves with
    | stay ip _ hframes' =>
      refine ⟨{ frame with ip } :: inner, callee, hframes', hcallee, fun other hother => ?_⟩
      rcases List.mem_cons.mp hother with rfl | hother
      · exact hbase
      · exact hrest other hother
    | enter count new hcall _ _ hslots hframes' _ =>
      refine ⟨new :: { frame with ip := frame.ip + i.size } :: inner, callee, hframes', hcallee,
        fun other hother => ?_⟩
      rcases List.mem_cons.mp hother with rfl | hother
      · rw [hcall, Instruction.takes] at htakes
        rw [hslots]
        omega
      · rcases List.mem_cons.mp hother with rfl | hother
        · exact hbase
        · exact hrest other hother
    | leave result _ hframes' _ => exact ⟨inner, callee, hframes', hcallee, hrest⟩

/-! ### Returns -/

/-- A run goes on with more than `count` calls active, until `count` are. -/
inductive RunsDownTo (hosts : Hosts) (count : Nat) : (m m' : Machine) → Prop
  | here {m : Machine} (hcount : m.frames.length = count) : RunsDownTo hosts count m m
  | step {m m₁ m' : Machine} (hcount : count < m.frames.length) (hstep : step hosts m = .next m₁)
    (hrun : RunsDownTo hosts count m₁ m') : RunsDownTo hosts count m m'

/-- The call that the machine is about to make returns, and its caller goes on from `m'`. -/
def Resumes (hosts : Hosts) (m m' : Machine) : Prop :=
  ∃ m₁, step hosts m = .next m₁ ∧ RunsDownTo hosts m.frames.length m₁ m'

theorem Inside.returns (hfamily : Function.Family S depth) (hhosts : hosts.Keeps S) (hm : Disciplined S depth m)
    {base : Array Value} {outer : List Frame} (h : Inside base outer m)
    (hrun : RunsDownTo hosts outer.length m m') :
    m'.frames = outer ∧ ∃ result, m'.stack = base.push result := by
  induction hrun with
  | here hcount => exact absurd hcount (Nat.ne_of_gt h.length_lt)
  | step hcount hstep hrun ih =>
    have hnext := hm.step hfamily hhosts
    rw [hstep] at hnext
    rcases h.step hfamily hm hstep with hinside | hleft
    · exact ih hnext hinside
    · cases hrun with
      | here => exact hleft
      | step hcount => exact absurd (congrArg List.length hleft.1) (Nat.ne_of_gt hcount)

theorem eq_extract_append (stack : Array Value) {place : Nat} (h : place < stack.size) :
    stack = stack.extract 0 place ++ #[stack[place]] ++ stack.extract (place + 1) stack.size := by
  have hone : stack.extract 0 place ++ #[stack[place]] = stack.extract 0 (place + 1) := by
    rw [Array.append_singleton, Array.push_extract_getElem h, Nat.min_eq_left (Nat.zero_le _)]
  rw [hone, Array.extract_append_extract, Nat.min_eq_left (Nat.zero_le _), Nat.max_eq_right h,
    Array.extract_size]

/-- The step of a call puts the result of a routine in its place, or is inside a call of a function. -/
theorem Disciplined.call (hfamily : Function.Family S depth) (h : Disciplined S depth m) {frame : Frame}
    {callers : List Frame} (hframes : m.frames = frame :: callers) {count : UInt8}
    (hread : Instruction.read frame.function.chunk.code frame.ip = .instruction (.call count)) :
    ∃ base callee arguments, m.stack = base ++ #[callee] ++ arguments ∧ arguments.size = count.toNat ∧
      ∀ m', Machine.step hosts m = .next m' → Inside base ({ frame with ip := frame.ip + 2 } :: callers) m' ∨
        m'.frames = { frame with ip := frame.ip + 2 } :: callers ∧ ∃ result, m'.stack = base.push result := by
  have hstacked := h.stacked
  rw [hframes] at hstacked
  obtain ⟨⟨hfunction, height, hdepth, hsize⟩, -⟩ := hstacked
  obtain ⟨i, hread', hflows⟩ := (hfamily.flows hfunction).inside hdepth
  cases hread.symm.trans hread'
  have htakes : count.toNat + 1 ≤ height := hflows.takes
  let place := m.stack.size - (count.toNat + 1)
  have hplace : place < m.stack.size := by omega
  have hbase : (m.stack.extract 0 place).size = place := by
    rw [Array.size_extract]
    omega
  have hsplit := eq_extract_append m.stack hplace
  refine ⟨m.stack.extract 0 place, m.stack[place], m.stack.extract (place + 1) m.stack.size, hsplit, ?_, ?_⟩
  · rw [Array.size_extract]
    omega
  · intro m' hstep
    rw [step_eq hframes hread] at hstep
    split at hstep
    · cases hstep
    · rw [Machine.perform] at hstep
      unfold Machine.call at hstep
      split at hstep
      · cases hstep
      · unfold Machine.callFunction at hstep
        split at hstep
        · cases hstep
        · split at hstep
          · cases hstep
          · split at hstep
            · cases hstep
            · cases hstep
              refine Or.inl ⟨⟨[], _, rfl, hbase.symm, fun _ h => absurd h List.not_mem_nil⟩, ?_⟩
              exact ⟨_, hsplit.trans Array.append_assoc⟩
      · unfold Machine.callNative at hstep
        split at hstep
        · cases hstep
        · dsimp only at hstep
          split at hstep
          · rename_i value _
            cases hstep
            refine Or.inr ⟨rfl, value, ?_⟩
            rw [Array.shrink_eq_take, Array.take_eq_extract, Nat.sub_sub]
          · cases hstep
      · cases hstep

/-! ### Compiled programs -/

/-- A machine whose innermost call obeys the discipline: it has as many values as the depth of its
    next instruction, it neither reads nor writes below them, and a call that it makes leaves
    nothing but its result. -/
structure Orderly (hosts : Hosts) (depth : Function → Nat → Option Nat) (m : Machine) (frame : Frame)
    (callers : List Frame) :
    Prop where
  height : frame.slots ≤ m.stack.size ∧ depth frame.function frame.ip = some (m.stack.size - frame.slots)
  below : ∀ low high low' : Array Value, m.stack = low ++ high → low.size = frame.slots →
    low'.size = frame.slots → Step.Alike low low' (step hosts m) (step hosts (m.withStack (low' ++ high)))
  call : ∀ count, Instruction.read frame.function.chunk.code frame.ip = .instruction (.call count) →
    ∃ base callee arguments, m.stack = base ++ #[callee] ++ arguments ∧ arguments.size = count.toNat ∧
      ∀ m', Resumes hosts m m' → m'.frames = { frame with ip := frame.ip + 2 } :: callers ∧ ∃ result,
      m'.stack = base.push result

theorem Disciplined.orderly (hfamily : Function.Family S depth) (hhosts : hosts.Keeps S)
    (h : Disciplined S depth m)
    {frame : Frame} {callers : List Frame} (hframes : m.frames = frame :: callers) :
    Orderly hosts depth m frame callers where
  height := by
    have hstacked := h.stacked
    rw [hframes] at hstacked
    obtain ⟨⟨-, height, hdepth, hsize⟩, -⟩ := hstacked
    rw [hsize, Nat.add_sub_cancel_left]
    exact ⟨Nat.le_add_right _ _, hdepth⟩
  below := fun low high low' hstack hlow hlow' => h.step_alike hfamily hframes hstack hlow hlow'
  call := by
    intro count hread
    obtain ⟨base, callee, arguments, hstack, hsize, hcall⟩ := h.call hfamily hframes hread
    refine ⟨base, callee, arguments, hstack, hsize, fun m' hresumes => ?_⟩
    obtain ⟨m₁, hstep, hrun⟩ := hresumes
    have hnext := h.step hfamily hhosts
    rw [hstep] at hnext
    have hlength : m.frames.length = ({ frame with ip := frame.ip + 2 } :: callers).length := by
      rw [hframes]
      rfl
    rw [hlength] at hrun
    rcases hcall m₁ hstep with hinside | hleft
    · exact hinside.returns hfamily hhosts hnext hrun
    · cases hrun with
      | here => exact hleft
      | step hcount => exact absurd (congrArg List.length hleft.1) (Nat.ne_of_gt hcount)

/-- The functions of compiled programs, with depths at which they flow. -/
theorem exists_family_compiled : ∃ depth, Function.Family Function.Compiled depth := by
  have hflows : ∀ f : Function, ∃ depth : Nat → Option Nat, f.Compiled → f.Flows depth := by
    intro f
    by_cases h : f.Compiled
    · obtain ⟨depth, hdepth⟩ := h.written.flows
      exact ⟨depth, fun _ => hdepth⟩
    · exact ⟨fun _ => none, fun hf => absurd hf h⟩
  choose depth hdepth using hflows
  exact ⟨depth, ⟨fun h => hdepth _ h, fun h hg => h.constant hg⟩⟩

/-- The discipline of compiled code: every function that the compiler makes has a depth at each offset that
    can be reached, and whenever a run of a compiled program is about to perform an instruction, the
    innermost call obeys it. -/
theorem compiled_orderly : ∃ depth : Function → Nat → Option Nat,
    ∀ (hosts : Hosts) (m m₀ m₁ : Machine) (script : Function) (fuel : Nat),
      hosts.Keeps Function.Compiled → m.globals.In Function.Compiled → script.Compiled →
      m.start script = .running m₀ → Machine.advance hosts m₀ fuel = .running m₁ →
      ∃ frame callers, m₁.frames = frame :: callers ∧ frame.function.Compiled ∧
      Orderly hosts depth m₁ frame callers := by
  obtain ⟨depth, hfamily⟩ := exists_family_compiled
  refine ⟨depth, fun hosts m m₀ m₁ script fuel hhosts hglobals hscript hstart hrun => ?_⟩
  have hstarted := start_sound hfamily hglobals hscript
  rw [hstart] at hstarted
  have hm : Progress.Sound Function.Compiled depth (.running m₁) := by
    rw [← hrun]
    exact Disciplined.advance hfamily hhosts hstarted fuel
  cases hframes : m₁.frames with
  | nil => exact absurd hframes hm.running
  | cons frame callers =>
    have hstacked := hm.stacked
    rw [hframes] at hstacked
    exact ⟨frame, callers, rfl, hstacked.1.1, hm.orderly hfamily hhosts hframes⟩

/-- The machine of a run that goes on. -/
def Progress.running? : Progress → Option Machine
  | running m => some m
  | done _ | failed _ _ => none

theorem Progress.running?_eq_some {progress : Progress} {m : Machine} (h : progress.running? = some m) :
    progress = .running m := by
  cases progress with
  | running m' => rw [Option.some.inj h]
  | done m' => cases h
  | failed m' fault => cases h

/-- A machine about to call a function of the program that it runs. -/
theorem compiled_orderly_call : ∃ depth m frame callers, m.frames = frame :: callers ∧
    Instruction.read frame.function.chunk.code frame.ip = .instruction (.call 1) ∧
    Orderly (Host.standard 0) depth m frame callers := by
  have hcompiles : ((compile "fun f(a) { return a; } print f(true);").toOption.any fun script =>
      ((Machine.new {} {}).start script).running?.any fun m₀ =>
        (Machine.advance (Host.standard 0) m₀ 4).running?.any fun m₁ =>
        m₁.frames.head?.any fun frame => Instruction.read frame.function.chunk.code frame.ip ==
          .instruction (.call 1)) =
      true := by decide +kernel
  obtain ⟨script, hcompile, hstarts⟩ := exists_ok_of_any hcompiles
  obtain ⟨m₀, hstart, hruns⟩ := (Option.any_eq_true _ _).mp hstarts
  obtain ⟨m₁, hrun, hreads⟩ := (Option.any_eq_true _ _).mp hruns
  obtain ⟨depth, h⟩ := compiled_orderly
  obtain ⟨frame, callers, hframes, -, horderly⟩ := h (Host.standard 0) (Machine.new {} {}) m₀ m₁ script 4
    ((Host.faithful_standard 0).always.keeps _) (globals_new _ _ _) ⟨_, script, hcompile, script.mem_all_self⟩
    (Progress.running?_eq_some hstart) (Progress.running?_eq_some hrun)
  rw [hframes] at hreads
  exact ⟨depth, m₁, frame, callers, hframes, by simpa using hreads, horderly⟩

end Lox.Machine
