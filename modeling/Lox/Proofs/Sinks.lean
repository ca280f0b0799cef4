import Lox.Proofs.Machine.Limits
import Lox.Proofs.Session

/-! # Bounded sinks

A sink with a capacity keeps exactly the beginning of what a sink without one holds. Two runs that differ
only in their sinks go on alike until a write does not fit, and the bounded sink is full from then on. The
runs may part there, but neither takes back what it has written, so the bounded sink still holds the
beginning of the other. -/

namespace Lox

/-! ### Writing -/

namespace Sink

variable {k : Nat} {bounded free bounded' free' sink sink' : Sink}

/-- A sink of `k` bytes holds the first `k` bytes of a sink without bound, or all of them if there are fewer. -/
structure Trails (k : Nat) (bounded free : Sink) : Prop where
  capacity : bounded.capacity = some k
  unbounded : free.capacity = none
  bytes : bounded.bytes = free.bytes.extract 0 k

theorem write_free (h : free.capacity = none) (text : String) :
    free.write text = (true, { free with bytes := free.bytes ++ text.toUTF8 }) := by
  simp [write, h]

/-- The room that is left can be told from what the sink without bound holds. -/
theorem Trails.write_bounded (h : Trails k bounded free) (text : String) : bounded.write text =
    (decide (text.toUTF8.size ≤ k - free.bytes.size),
      { bounded with bytes := bounded.bytes ++ text.toUTF8.extract 0 (k - free.bytes.size) }) := by
  have hroom : k - bounded.bytes.size = k - free.bytes.size := by
    rw [h.bytes, ByteArray.size_extract]
    omega
  unfold write
  rw [h.capacity]
  dsimp only
  rw [hroom]
  split
  · rename_i hfits
    have hall : text.toUTF8.extract 0 (k - free.bytes.size) = text.toUTF8 := by
      rw [← Nat.max_eq_left hfits]
      exact ByteArray.extract_zero_max_size
    rw [decide_eq_true hfits, hall]
  · rename_i hfits
    rw [decide_eq_false hfits]

theorem Trails.write (h : Trails k bounded free) (text : String) :
    Trails k (bounded.write text).2 (free.write text).2 := by
  rw [h.write_bounded, write_free h.unbounded]
  refine ⟨h.capacity, h.unbounded, ?_⟩
  dsimp only
  rw [ByteArray.extract_append, Nat.zero_sub, h.bytes]

/-- A write that does not fit fills the sink. -/
theorem Trails.full_of_not_placed (h : Trails k bounded free) {text : String}
    (hplaced : (bounded.write text).1 = false) :
    k ≤ (free.write text).2.bytes.size := by
  rw [h.write_bounded] at hplaced
  have hlarge := of_decide_eq_false hplaced
  rw [write_free h.unbounded, ByteArray.size_append]
  omega

/-- A sink after some more texts. -/
inductive Grows (sink : Sink) : Sink → Prop
  | same : Grows sink sink
  | write {sink' : Sink} (h : Grows sink sink') (text : String) : Grows sink (sink'.write text).2

theorem Grows.trans {sink'' : Sink} (h : Grows sink sink') (h' : Grows sink' sink'') : Grows sink sink'' := by
  induction h' with
  | same => exact h
  | write _ text ih => exact ih.write text

/-- A full sink stays as it is. -/
theorem Trails.grows_bounded (h : Trails k bounded free) (hfull : k ≤ free.bytes.size)
    (hgrows : bounded.Grows bounded') :
    Trails k bounded' free := by
  induction hgrows with
  | same => exact h
  | write _ text ih =>
    rw [ih.write_bounded, Nat.sub_eq_zero_of_le hfull, ByteArray.extract_same, ByteArray.append_empty]
    exact ih

/-- What a sink without bound holds stays at its beginning. -/
theorem Trails.grows_free (h : Trails k bounded free) (hfull : k ≤ free.bytes.size)
    (hgrows : free.Grows free') :
    Trails k bounded free' ∧ k ≤ free'.bytes.size := by
  induction hgrows with
  | same => exact ⟨h, hfull⟩
  | write _ text ih =>
    obtain ⟨htrails, hsize⟩ := ih
    rw [write_free htrails.unbounded]
    refine ⟨⟨htrails.capacity, htrails.unbounded, ?_⟩, ?_⟩
    · dsimp only
      rw [ByteArray.extract_append, Nat.sub_eq_zero_of_le hsize, Nat.zero_sub, ByteArray.extract_same,
        ByteArray.append_empty]
      exact htrails.bytes
    · dsimp only
      rw [ByteArray.size_append]
      exact Nat.le_trans hsize (Nat.le_add_right _ _)

theorem Trails.grows (h : Trails k bounded free) (hfull : k ≤ free.bytes.size)
    (hbounded : bounded.Grows bounded')
    (hfree : free.Grows free') : Trails k bounded' free' ∧ k ≤ free'.bytes.size :=
  (h.grows_bounded hfull hbounded).grows_free hfull hfree

end Sink

namespace Machine

variable {host : Host} {hosts : Hosts} {k : Nat} {m bounded free : Machine}

/-- The machine with another sink. -/
def withSink (m : Machine) (sink : Sink) : Machine := { m with sink }

/-- The same step with another sink. -/
def Step.withSink (sink : Sink) : Step → Step
  | .next m => .next (m.withSink sink)
  | .done m => .done (m.withSink sink)
  | .fault m reason => .fault (m.withSink sink) reason

/-- The same progress with another sink. -/
def Progress.withSink (sink : Sink) : Progress → Progress
  | .running m => .running (m.withSink sink)
  | .done m => .done (m.withSink sink)
  | .failed m reason => .failed (m.withSink sink) reason

/-- The machine to which a step leads. -/
def Step.machine : Step → Machine
  | .next m | .done m | .fault m _ => m

/-! ### What a step does to the sink -/

/-- What does the same amid all sinks does the same with another sink. -/
theorem Step.withSink_of_amid (act : Machine → Step)
    (h : ∀ sink, act (m.amid m.limits sink) = (act m).amid m.limits sink) (sink : Sink) :
    act (m.withSink sink) = (act m).withSink sink := by
  have hself : act m = (act m).amid m.limits m.sink := h m.sink
  calc act (m.withSink sink) = (act m).amid m.limits sink := h sink
    _ = ((act m).amid m.limits m.sink).withSink sink := by cases act m <;> rfl
    _ = (act m).withSink sink := by rw [← hself]

/-- A print of a text: if it is placed, the machine goes on as `after`, and else it is stuck. -/
def printing (text : String) (after stuck : Machine) (sink : Sink) : Step :=
  match sink.write text with
  | (true, sink) => .next (after.withSink sink)
  | (false, sink) => .fault (stuck.withSink sink) (.output Sink.full)

theorem perform_withSink (host : Host) (m : Machine) (frame : Frame) (i : Instruction) :
    (∀ sink, perform host (m.withSink sink) frame i = (perform host m frame i).withSink sink) ∨
      ∃ text after, ∀ sink, perform host (m.withSink sink) frame i = printing text after m sink := by
  by_cases hprint : i = .print
  · subst hprint
    cases hpeek : m.peek? 0 with
    | none =>
      left
      intro sink
      have hpeek' : (m.withSink sink).peek? 0 = none := hpeek
      rw [perform, perform, hpeek, hpeek']
      rfl
    | some value =>
      right
      refine ⟨value.text ++ "\n", { m with stack := m.stack.pop }, fun sink => ?_⟩
      have hpeek' : (m.withSink sink).peek? 0 = some value := hpeek
      rw [perform, hpeek']
      rfl
  · left
    by_cases hcall : ∃ count, i = .call count
    · obtain ⟨count, rfl⟩ := hcall
      exact Step.withSink_of_amid (call host · count) fun sink => call_amid m m.limits sink Iff.rfl count
    · refine Step.withSink_of_amid (perform host · frame i) fun sink => ?_
      exact perform_amid m m.limits sink frame (fun count heq => hcall ⟨count, heq⟩) hprint

@[simp] theorem frames_withSink (m : Machine) (sink : Sink) : (m.withSink sink).frames = m.frames := rfl

@[simp] theorem sink_withSink (m : Machine) (sink : Sink) : (m.withSink sink).sink = sink := rfl

/-- The limit of steps is the same with every sink. -/
theorem filter_withSink (m : Machine) (sink : Sink) : (m.withSink sink).limits.maxSteps.filter
    (· ≤ (m.withSink sink).steps) = m.limits.maxSteps.filter (· ≤ m.steps) := rfl

/-- A step does not see the sink, or it prints one text. -/
theorem step_withSink (hosts : Hosts) (m : Machine) :
    (∀ sink, step hosts (m.withSink sink) = (step hosts m).withSink sink) ∨
      ∃ text after stuck, ∀ sink, step hosts (m.withSink sink) = printing text after stuck sink := by
  simp only [step, filter_withSink, frames_withSink]
  cases m.limits.maxSteps.filter (· ≤ m.steps) with
  | some limit => exact .inl fun _ => rfl
  | none =>
    cases m.frames with
    | nil => exact .inl fun _ => rfl
    | cons frame callers =>
      dsimp only
      cases Instruction.read frame.function.chunk.code frame.ip with
      | instruction i =>
        let fetched :=
          { m with steps := m.steps + 1, frames := { frame with ip := frame.ip + i.size } :: callers }
        rcases perform_withSink (hosts.during m.steps) fetched { frame with ip := frame.ip + i.size } i with
          hsame | ⟨text, after, hprints⟩
        · exact .inl hsame
        · exact .inr ⟨text, after, fetched, hprints⟩
      | unknown | truncated | pastEnd => exact .inl fun _ => rfl

theorem sink_step_of_unseen (h : ∀ sink, step hosts (m.withSink sink) = (step hosts m).withSink sink) :
    (step hosts m).machine.sink = m.sink := by
  have hself : step hosts m = (step hosts m).withSink m.sink := h m.sink
  rw [hself]
  cases step hosts m <;> rfl

/-- What a step does to the sink is to write to it. -/
theorem grows_step (hosts : Hosts) (m : Machine) : m.sink.Grows (step hosts m).machine.sink := by
  rcases step_withSink hosts m with hsame | ⟨text, after, stuck, hprints⟩
  · rw [sink_step_of_unseen hsame]
    exact .same
  · have hself : step hosts m = printing text after stuck m.sink := hprints m.sink
    have hwrites : m.sink.Grows (m.sink.write text).2 := Sink.Grows.same.write text
    rw [hself, printing]
    rcases hwrite : m.sink.write text with ⟨_ | _, sink⟩ <;> rw [hwrite] at hwrites <;> exact hwrites

theorem grows_advance (hosts : Hosts) (m : Machine) (fuel : Nat) :
    m.sink.Grows (advance hosts m fuel).machine.sink := by
  induction fuel generalizing m with
  | zero => exact .same
  | succ fuel ih =>
    have hstep := grows_step hosts m
    unfold advance
    split <;> rename_i heq <;> rw [heq] at hstep
    · exact hstep.trans (ih _)
    · exact hstep
    · exact hstep

theorem start_withSink (m : Machine) (sink : Sink) (script : Function) :
    (m.withSink sink).start script = (m.start script).withSink sink := by
  rw [start_eq, start_eq]
  show (if _ then _ else if m.limits.maxFrames = 0 then _ else _) = _
  split_ifs <;> rfl

theorem grows_progress (hosts : Hosts) (m : Machine) (script : Function) (fuel : Nat) :
    m.sink.Grows (progress hosts fuel m script).machine.sink := by
  have hstart : m.start script = (m.start script).withSink m.sink := start_withSink m m.sink script
  unfold progress
  cases hbegin : m.start script with
  | running m' =>
    rw [hbegin] at hstart
    have hsink : m'.sink = m.sink := by rw [Progress.running.inj hstart, sink_withSink]
    rw [← hsink]
    exact grows_advance hosts m' fuel
  | done m' =>
    rw [hbegin] at hstart
    rw [hstart]
    exact .same
  | failed m' reason =>
    rw [hbegin] at hstart
    rw [hstart]
    exact .same

theorem grows_report (m : Machine) (text : String) : m.sink.Grows (m.report text).2.sink := .write .same _

theorem grows_outcome {p : Progress} {o : Outcome} (h : p.outcome? = some o) :
    p.machine.sink.Grows o.machine.sink := by
  cases p with
  | running m => cases h
  | done m =>
    cases h
    exact .same
  | failed m reason =>
    cases h
    exact grows_report m _

/-! ### Two runs -/

/-- A machine with a sink of `k` bytes beside one whose sink has no bound: as long as the bounded sink has
    room, nothing but their sinks can differ. -/
structure Shadows (k : Nat) (bounded free : Machine) : Prop where
  trails : Sink.Trails k bounded.sink free.sink
  same : free.sink.bytes.size < k → free = bounded.withSink free.sink

/-- Two runs, the first with a sink of `k` bytes. -/
structure Progress.Shadows (k : Nat) (bounded free : Progress) : Prop where
  trails : Sink.Trails k bounded.machine.sink free.machine.sink
  same : free.machine.sink.bytes.size < k → free = bounded.withSink free.machine.sink

theorem Shadows.of_withSink {sink : Sink} (h : Sink.Trails k m.sink sink) : Shadows k m (m.withSink sink) :=
  ⟨h, fun _ => rfl⟩

/-- Once the bounded sink is full, nothing else matters. -/
theorem Progress.Shadows.of_full {p q : Progress} {bounded free : Sink} (h : Sink.Trails k bounded free)
    (hfull : k ≤ free.bytes.size) (hbounded : bounded.Grows p.machine.sink)
    (hfree : free.Grows q.machine.sink) :
    p.Shadows k q := by
  obtain ⟨htrails, hsize⟩ := h.grows hfull hbounded hfree
  exact ⟨htrails, fun hlt => absurd hlt (Nat.not_lt_of_le hsize)⟩

/-- Runs with bounded and unbounded sinks keep step until a write does not fit. -/
theorem Shadows.advance (h : Shadows k bounded free) (hosts : Hosts) (fuel : Nat) :
    (advance hosts bounded fuel).Shadows k (advance hosts free fuel) := by
  induction fuel generalizing bounded free with
  | zero => exact ⟨h.trails, fun hlt => congrArg Progress.running (h.same hlt)⟩
  | succ fuel ih =>
    by_cases hfull : k ≤ free.sink.bytes.size
    · exact .of_full h.trails hfull (grows_advance hosts bounded _) (grows_advance hosts free _)
    · have hfree := h.same (Nat.lt_of_not_le hfull)
      rcases step_withSink hosts bounded with hsame | ⟨text, after, stuck, hprints⟩
      · have hsink := sink_step_of_unseen hsame
        have hstep : step hosts free = (step hosts bounded).withSink free.sink := by
          rw [hfree]
          exact hsame free.sink
        have htrails : Sink.Trails k (step hosts bounded).machine.sink free.sink := by
          rw [hsink]
          exact h.trails
        rw [Machine.advance, Machine.advance, hstep]
        cases hcase : step hosts bounded <;> rw [hcase] at htrails
        · exact ih (.of_withSink htrails)
        · exact ⟨htrails, fun _ => rfl⟩
        · exact ⟨htrails, fun _ => rfl⟩
      · have hbounded : step hosts bounded = printing text after stuck bounded.sink := hprints bounded.sink
        have hstep : step hosts free = .next (after.withSink (free.sink.write text).2) := by
          have hprinted : step hosts free = printing text after stuck free.sink := by
            rw [hfree]
            exact hprints free.sink
          rw [hprinted, printing, Sink.write_free h.trails.unbounded]
        have htrails := h.trails.write text
        have hfills : (bounded.sink.write text).1 = false → k ≤ (free.sink.write text).2.bytes.size :=
          h.trails.full_of_not_placed
        rw [Machine.advance, Machine.advance, hstep, hbounded, printing]
        rcases hwrite : bounded.sink.write text with ⟨_ | _, sink⟩
        · -- The bounded run ends here, with a full sink.
          rw [hwrite] at htrails hfills
          exact .of_full htrails (hfills rfl) .same
            (grows_advance hosts (after.withSink (free.sink.write text).2) fuel)
        · rw [hwrite] at htrails
          exact ih ⟨htrails, fun _ => rfl⟩

theorem Shadows.progress (h : Shadows k bounded free) (hosts : Hosts) (script : Function) (fuel : Nat) :
    (progress hosts fuel bounded script).Shadows k (progress hosts fuel free script) := by
  by_cases hfull : k ≤ free.sink.bytes.size
  · exact .of_full h.trails hfull (grows_progress hosts bounded script fuel)
      (grows_progress hosts free script fuel)
  · have hstart : free.start script = (bounded.start script).withSink free.sink := by
      rw [h.same (Nat.lt_of_not_le hfull)]
      exact start_withSink bounded free.sink script
    have hsink : (bounded.start script).machine.sink = bounded.sink := by
      have hself : bounded.start script = (bounded.start script).withSink bounded.sink :=
        start_withSink bounded bounded.sink script
      rw [hself]
      cases bounded.start script <;> rfl
    have htrails : Sink.Trails k (bounded.start script).machine.sink free.sink := by
      rw [hsink]
      exact h.trails
    rw [Machine.progress, Machine.progress, hstart]
    cases hcase : bounded.start script <;> rw [hcase] at htrails
    · exact (Shadows.of_withSink htrails).advance hosts fuel
    · exact ⟨htrails, fun _ => rfl⟩
    · exact ⟨htrails, fun _ => rfl⟩

/-- Both report the same text: a part of it is placed, or nothing, if it does not fit. -/
theorem Shadows.report (h : Shadows k bounded free) (text : String) :
    Shadows k (bounded.report text).2 (free.report text).2 := by
  refine ⟨h.trails.write _, fun hlt => ?_⟩
  have hsmall : free.sink.bytes.size < k := by
    by_contra hfull
    have hgrown := h.trails.grows (Nat.le_of_not_lt hfull) .same (grows_report free text)
    exact absurd hlt (Nat.not_lt_of_le hgrown.2)
  have hfree := h.same hsmall
  show { free with sink := (free.sink.write (text ++ "\n")).2 } = _
  rw [hfree]
  rfl

theorem Shadows.reset (h : Shadows k bounded free) : Shadows k bounded.reset free.reset := by
  refine ⟨h.trails, fun hlt => ?_⟩
  have hfree := h.same hlt
  show { free with stack := #[], frames := [], steps := 0 } = _
  rw [hfree]
  rfl

theorem Shadows.fail {sink : Sink} (h : Sink.Trails k m.sink sink) (fault : Fault) :
    Shadows k (m.fail fault).machine ((m.withSink sink).fail fault).machine :=
  ((Shadows.of_withSink h).report (RuntimeError.text ⟨fault, m.trace⟩)).reset

theorem Progress.Shadows.outcome {p q : Progress} (h : p.Shadows k q) {o o' : Outcome}
    (ho : p.outcome? = some o) (ho' : q.outcome? = some o') : o.machine.Shadows k o'.machine := by
  by_cases hfull : k ≤ q.machine.sink.bytes.size
  · obtain ⟨htrails, hsize⟩ := h.trails.grows hfull (grows_outcome ho) (grows_outcome ho')
    exact ⟨htrails, fun hlt => absurd hlt (Nat.not_lt_of_le hsize)⟩
  · have hq := h.same (Nat.lt_of_not_le hfull)
    cases p with
    | running bounded => cases ho
    | done bounded =>
      cases ho
      rw [hq] at ho'
      cases ho'
      exact Shadows.of_withSink h.trails
    | failed bounded fault =>
      cases ho
      rw [hq] at ho'
      cases ho'
      exact Shadows.fail h.trails fault

/-- Runs of a script with bounded and unbounded sinks, if both end, however much fuel each of them has. -/
theorem Shadows.run (h : Shadows k bounded free) {script : Function} {n n' : Nat} {o o' : Outcome}
    (ho : run hosts n bounded script = some o) (ho' : run hosts n' free script = some o') :
    o.machine.Shadows k o'.machine := by
  have hrun := run_add (k := n') ho
  have hrun' := run_add (k := n) ho'
  rw [Nat.add_comm] at hrun'
  rw [run_eq] at hrun hrun'
  exact (h.progress hosts script (n + n')).outcome hrun hrun'

theorem Shadows.defineNative (h : Shadows k bounded free) (name routine : String) :
    Shadows k (bounded.defineNative name routine) (free.defineNative name routine) := by
  refine ⟨h.trails, fun hlt => ?_⟩
  have hfree := h.same hlt
  unfold Machine.defineNative
  rw [hfree]
  rfl

end Machine

/-! ### Two sessions -/

namespace Session

variable {k : Nat} {host : Host} {hosts : Hosts} {bounded free : Machine}

/-- The machines after the requests of a session, one after each that ends within the fuel. A session does not
    go on after a request that does not end. -/
def machines (setting : Setting) (m : Machine) : List Request → List Machine
  | [] => []
  | request :: requests =>
    match answer setting m request with
    | none => []
    | some reply => reply.machine :: machines setting reply.machine requests

/-- The machine after a run is the same whether the run is watched or not. -/
theorem exists_run_of_run {setting : Setting} {m : Machine} {script : Function} {log : List Log.Record}
    {reply : Reply} (h : run setting m script log = some reply) :
    ∃ o, m.run setting.host setting.fuel script = some o ∧ reply.machine = o.machine := by
  obtain ⟨outcome, houtcome, rfl⟩ := Option.map_eq_some_iff.mp h
  split at houtcome
  · unfold Machine.runWatched at houtcome
    unfold Machine.run
    split at houtcome
    · obtain ⟨plain, hplain, rfl⟩ := Option.map_eq_some_iff.mp houtcome
      rw [Machine.watch_fst] at hplain
      exact ⟨plain, hplain, rfl⟩
    · exact ⟨outcome, houtcome, rfl⟩
  · exact ⟨outcome, houtcome, rfl⟩

theorem shadows_run (h : bounded.Shadows k free) {setting setting' : Setting}
    (hhost : setting.host = setting'.host)
    {script : Function} {log log' : List Log.Record} {reply reply' : Reply}
    (hreply : run setting bounded script log = some reply)
    (hreply' : run setting' free script log' = some reply') :
    reply.machine.Shadows k reply'.machine := by
  obtain ⟨o, ho, heq⟩ := exists_run_of_run hreply
  obtain ⟨o', ho', heq'⟩ := exists_run_of_run hreply'
  rw [heq, heq']
  rw [← hhost] at ho'
  exact h.run ho ho'

theorem shadows_load (h : bounded.Shadows k free) {setting setting' : Setting}
    (hhost : setting.host = setting'.host)
    {image : List UInt8} {log log' : List Log.Record} {reply reply' : Reply}
    (hreply : load setting bounded image log = some reply)
    (hreply' : load setting' free image log' = some reply') :
    reply.machine.Shadows k reply'.machine := by
  unfold load at hreply hreply'
  split at hreply
  · rename_i hdecode
    rw [hdecode] at hreply'
    cases hreply
    cases hreply'
    exact h
  · rename_i hdecode
    rw [hdecode] at hreply'
    exact shadows_run h hhost hreply hreply'

/-- A request that both sessions answer. -/
theorem shadows_answer (h : bounded.Shadows k free) {setting setting' : Setting}
    (hhost : setting.host = setting'.host)
    {request : Request} {reply reply' : Reply} (hreply : answer setting bounded request = some reply)
    (hreply' : answer setting' free request = some reply') : reply.machine.Shadows k reply'.machine := by
  cases request with
  | interpret source =>
    unfold answer interpret at hreply hreply'
    dsimp only at hreply hreply'
    split at hreply
    · rename_i hcompile
      rw [hcompile] at hreply'
      exact shadows_run h hhost hreply hreply'
    · rename_i hcompile
      rw [hcompile] at hreply'
      cases hreply
      cases hreply'
      exact h.report _
  | run script => exact shadows_run h hhost hreply hreply'
  | load image => exact shadows_load h hhost hreply hreply'
  | roundTrip source =>
    unfold answer roundTrip at hreply hreply'
    dsimp only at hreply hreply'
    split at hreply
    · rename_i hcompile
      rw [hcompile] at hreply'
      cases hreply
      cases hreply'
      exact h
    · rename_i hcompile
      rw [hcompile] at hreply'
      dsimp only at hreply'
      split at hreply
      · rename_i hencode
        rw [hencode] at hreply'
        cases hreply
        cases hreply'
        exact h
      · rename_i hencode
        rw [hencode] at hreply'
        exact shadows_load h hhost hreply hreply'
  | defineNative name routine =>
    cases hreply
    cases hreply'
    exact h.defineNative name routine

theorem shadows_machines (h : bounded.Shadows k free) {setting setting' : Setting}
    (hhost : setting.host = setting'.host)
    {requests : List Request} {n : Nat} {m m' : Machine} (hm : (machines setting bounded requests)[n]? = some m)
    (hm' : (machines setting' free requests)[n]? = some m') : m.Shadows k m' := by
  induction requests generalizing bounded free n with
  | nil => cases hm
  | cons request requests ih =>
    unfold machines at hm hm'
    split at hm
    · cases hm
    · rename_i reply hreply
      split at hm'
      · cases hm'
      · rename_i reply' hreply'
        have hnext := shadows_answer h hhost hreply hreply'
        cases n with
        | zero =>
          cases hm
          cases hm'
          exact hnext
        | succ n => exact ih hnext hm hm'

/-- A bounded sink keeps exactly a prefix. A session whose sink holds at most `k` bytes and the same session
    with a sink without bound begin alike, with nothing written. After every number of requests that both have
    answered, whatever fuel they take and however far they have parted, the bounded sink holds the first `k`
    bytes of the other, or all of them if there are fewer. -/
theorem bounded_sink_keeps_prefix (host : Host) (m : Machine) (k : Nat) (requests : List Request)
    (fuel fuel' : Nat) (watched watched' : Bool) {n : Nat} {bounded free : Machine}
    (hbounded : (machines ⟨host, fuel, watched⟩ (m.withSink { capacity := some k }) requests)[n]? =
      some bounded)
    (hfree : (machines ⟨host, fuel', watched'⟩ (m.withSink {}) requests)[n]? = some free) :
    bounded.sink.bytes = free.sink.bytes.extract 0 k := by
  have hempty : Sink.Trails k { capacity := some k } {} :=
    ⟨rfl, rfl, (ByteArray.extract_eq_empty_iff.mpr (Nat.min_le_right ..)).symm⟩
  have hshadows : Machine.Shadows k (m.withSink { capacity := some k }) (m.withSink {}) :=
    ⟨hempty, fun _ => rfl⟩
  have hhost : (Setting.mk host fuel watched).host = (Setting.mk host fuel' watched').host := rfl
  exact (shadows_machines hshadows hhost hbounded hfree).trails.bytes

/-- With room for one byte, the first request fails in its `print` and does not come to its declaration, so
    the second one fails too. -/
theorem bounded_sink_keeps_prefix_parted : ∃ bounded free : Machine,
    (machines ⟨Host.standard 0, 20, false⟩ (Machine.new {} { capacity := some 1 })
      [.interpret "print \"ab\"; var x = true;", .interpret "print x;"])[1]? = some bounded ∧
    (machines ⟨Host.standard 0, 30, true⟩ (Machine.new {} {})
      [.interpret "print \"ab\"; var x = true;", .interpret "print x;"])[1]? = some free ∧
    bounded.globals.size = 1 ∧ free.globals.size = 2 ∧ free.sink.bytes = "ab\ntrue\n".toUTF8 ∧
    bounded.sink.bytes = free.sink.bytes.extract 0 1 := by
  have hbounded : ((machines ⟨Host.standard 0, 20, false⟩ (Machine.new {} { capacity := some 1 })
      [.interpret "print \"ab\"; var x = true;", .interpret "print x;"])[1]?.any fun m =>
        m.globals.size = 1) = true := by
    decide +kernel
  have hfree : ((machines ⟨Host.standard 0, 30, true⟩ (Machine.new {} {})
      [.interpret "print \"ab\"; var x = true;", .interpret "print x;"])[1]?.any fun m =>
        m.globals.size = 2 ∧ m.sink.bytes = "ab\ntrue\n".toUTF8) = true := by
    decide +kernel
  obtain ⟨bounded, hm, hsize⟩ := (Option.any_eq_true _ _).mp hbounded
  obtain ⟨free, hm', htest⟩ := (Option.any_eq_true _ _).mp hfree
  obtain ⟨hsize', hbytes⟩ := of_decide_eq_true htest
  refine ⟨bounded, free, hm, hm', of_decide_eq_true hsize, hsize', hbytes, ?_⟩
  exact bounded_sink_keeps_prefix (Host.standard 0) (Machine.new {} {}) 1 _ 20 30 false true hm hm'

end Session

end Lox
