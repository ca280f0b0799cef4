import Lox.Proofs.Machine.Trace
import Lox.Proofs.Sequence.Session

/-! # Backtraces of sessions

A runtime error of a session comes from a run of a compiled script. Unless the limit of steps has stopped the
run, its trace shows exactly the calls that were active, each by the instruction that it had read last. -/

namespace Lox

namespace Machine

variable {host : Host} {hosts : Hosts} {m : Machine} {script : Function} {fuel : Nat}

theorem limits_progress (hosts : Hosts) (fuel : Nat) (m : Machine) (script : Function) :
    (progress hosts fuel m script).machine.limits = m.limits := by
  have hstarted := (unchanged_start m script).2
  unfold progress
  cases hstart : m.start script with
  | running m₀ =>
    rw [hstart] at hstarted
    exact (retains_advance hosts m₀ fuel).limits.trans hstarted
  | done m₀ | failed m₀ fault =>
    rw [hstart] at hstarted
    exact hstarted

end Machine

namespace Session

variable {setting : Setting} {m : Machine} {reply : Reply} {script : Function}

theorem limits_run {log : List Log.Record} (hreply : run setting m script log = some reply) :
    reply.machine.limits = m.limits := by
  rcases run_cases setting m script log with ⟨hnone, -⟩ | ⟨outcome, log', houtcome, hsome⟩
  · cases hnone.symm.trans hreply
  · cases hsome.symm.trans hreply
    exact (Machine.unchanged_outcome houtcome).2.trans (Machine.limits_progress _ _ _ _)

/-- The limits of a session stay as they are. -/
theorem Reached.limits {limits : Limits} {sink : Sink} (h : Reached limits sink m) : m.limits = limits := by
  induction h with
  | new => rfl
  | answer h hhost hrequest hreply ih =>
    rcases answer_cases hrequest hreply with ⟨source, script, log, -, -, hrun⟩ |
      ⟨name, routine, hmachine, -⟩ | ⟨sink, hmachine, -⟩
    · exact (limits_run hrun).trans ih
    · rw [hmachine]
      exact ih
    · rw [hmachine]
      exact ih

/-- A request that ends with a runtime error comes from a run that ends with this error. -/
theorem exists_run_of_error {log : List Log.Record} (hreply : run setting m script log = some reply)
    {error : RuntimeError} (herror : reply.result = .error (.runtime error)) :
    ∃ o, m.run setting.host setting.fuel script = some o ∧ o.result = .error error := by
  rcases run_cases setting m script log with ⟨hnone, -⟩ | ⟨outcome, log', houtcome, hsome⟩
  · cases hnone.symm.trans hreply
  · cases hsome.symm.trans hreply
    refine ⟨outcome, by rw [Machine.run_eq, houtcome], ?_⟩
    cases hresult : outcome.result with
    | ok value =>
      rw [hresult] at herror
      cases herror
    | error error' =>
      rw [hresult] at herror
      cases herror
      rfl

/-- The trace of a runtime error of a session shows exactly the calls that were active, unless the limit of
    steps has stopped the run: each by its name and by the line of the opcode that it had read last, for all
    but the innermost that of the call. There are no more of them than may be active, and when the calls
    overflow there are as many. -/
theorem trace_exact {limits : Limits} {sink : Sink} (h : Reached limits sink m) (hhost : setting.host.Faithful)
    {request : Request} (hrequest : request.FromSource) (hreply : answer setting m request = some reply)
    {error : RuntimeError} (herror : reply.result = .error (.runtime error))
    (hlimit : ∀ limit, error.fault ≠ .stepLimit limit) :
    ∃ source script stopped, ∃ calls : List ActiveCall, request.source? = some source ∧
      compile source = .ok script ∧
      m.runNoted setting.host setting.fuel script = (.failed stopped error.fault,
        calls.map fun call => some call.place) ∧
      stopped.frames = calls.map (·.frame) ∧ ShowsCalls error.trace calls ∧
      error.trace.length = stopped.frames.length ∧ error.trace.length ≤ limits.maxFrames ∧
      (error.fault = .stackOverflow → error.trace.length = limits.maxFrames) := by
  rcases answer_cases hrequest hreply with
    ⟨source, script, log, hsource, hcompile, hrun⟩ | ⟨-, -, -, hnone⟩ | ⟨-, -, hnone⟩
  · obtain ⟨o, hrun, hresult⟩ := exists_run_of_error hrun herror
    obtain ⟨stopped, reads, hnoted, htrace⟩ := Machine.exists_noted_of_error hrun hresult
    have hlength : error.trace.length = stopped.frames.length := by rw [htrace, Machine.trace, List.length_map]
    have hscript : script.Compiled := ⟨source, script, hcompile, script.mem_all_self⟩
    rw [← h.limits, hlength]
    rcases Machine.runNoted_failed (hhost.keeps _) h.globals hscript hnoted with
      ⟨hframes, rfl, -, hfull⟩ | ⟨m₁, reads₁, htraced, hlimits, hstep, rfl⟩
    · refine ⟨source, script, stopped, [], hsource, hcompile, hnoted, hframes, ?_, rfl, ?_, fun hoverflow => ?_⟩
      · rw [htrace, Machine.trace, hframes]
        exact ⟨fun call hcall => absurd hcall List.not_mem_nil,
          fun call hcall => absurd hcall List.not_mem_nil, rfl, rfl⟩
      · rw [hframes]
        exact Nat.zero_le _
      · rw [hframes, hfull hoverflow]
        rfl
    · obtain ⟨calls, hframes, hreads, hshows⟩ := htraced.exists_calls hstep hlimit
      obtain ⟨-, -, -, -, -, -, -, -, -, -, hroom, hfull⟩ := htraced.fault hstep hlimit
      rw [hreads] at hnoted
      rw [← htrace] at hshows
      rw [hlimits] at hroom hfull
      exact ⟨source, script, stopped, calls, hsource, hcompile, hnoted, hframes, hshows, rfl, hroom, hfull⟩
  · exact absurd herror (hnone error)
  · exact absurd herror (hnone error)

/-- A script fails in a call of a function of an earlier request, which is inside another call. -/
theorem trace_exact_nested :
    ∃ (m : Machine) (setting : Setting) (request : Request) (reply : Reply) (error : RuntimeError)
    (stopped : Machine) (calls : List ActiveCall), Reached {} {} m ∧ answer setting m request = some reply ∧
    reply.result = .error (.runtime error) ∧ error.trace = [⟨3, "g"⟩, ⟨7, "f"⟩, ⟨3, "script"⟩] ∧
    stopped.frames = calls.map (·.frame) ∧ ShowsCalls error.trace calls := by
  let setting : Setting := { host := Host.standard 0, fuel := 40 }
  have hhost : setting.host.Faithful := (Host.faithful_standard 0).always
  let functions := "fun g(a) \x7b\n  return\n    -a;\n\x7d\nfun f(a) \x7b\n  g(\n    a);\n\x7d"
  have hruns : ((answer setting (Machine.new {} {}) (.interpret functions)).any fun first =>
      (answer setting first.machine (.interpret "\n\nf(nil);")).any fun second => match second.result with
        | .error (.runtime error) => decide (error = ⟨.operandNotNumber, [⟨3, "g"⟩, ⟨7, "f"⟩, ⟨3, "script"⟩]⟩)
        | _ => false) = true := by decide +kernel
  obtain ⟨first, hfirst, hfails⟩ := (Option.any_eq_true _ _).mp hruns
  obtain ⟨second, hsecond, hresult⟩ := (Option.any_eq_true _ _).mp hfails
  split at hresult
  · rename_i error herror
    have hrequest : (Request.interpret functions).FromSource := trivial
    have hrequest' : (Request.interpret "\n\nf(nil);").FromSource := trivial
    have hreached : Reached {} {} first.machine := .answer .new hhost hrequest hfirst
    cases of_decide_eq_true hresult
    obtain ⟨-, -, stopped, calls, -, -, -, hframes, hshows, -⟩ :=
      trace_exact hreached hhost hrequest' hsecond herror fun limit => by simp
    exact ⟨first.machine, setting, _, second, _, stopped, calls, hreached, hsecond, herror, rfl,
      hframes, hshows⟩
  · cases hresult

end Session

end Lox
