import Lox.Proofs.Image
import Lox.Proofs.Machine.Calls
import Lox.Proofs.Machine.Wording
import Lox.Session

/-! # Sessions of compiled programs

The functions among the globals of a session in which only source texts are run were all made by the compiler,
also when they went through images. No request of it therefore ends with a fault of corrupt code. -/

namespace Lox

/-! ### Runs -/

namespace Machine

variable {S : Function → Prop} {depth : Function → Nat → Option Nat} {host : Host} {hosts : Hosts} {m : Machine}

/-- To watch a run does not change it. -/
theorem watch_fst (hosts : Hosts) (m : Machine) (notes : Array Log.Record) (fuel : Nat) :
    (watch hosts m notes fuel).1 = advance hosts m fuel := by
  induction fuel generalizing m notes with
  | zero => rfl
  | succ fuel ih =>
    rw [watch, advance]
    cases step hosts m with
    | next m' => exact ih m' _
    | done m' => rfl
    | fault m' reason => rfl

/-- An outcome that leaves only functions in a set among the globals and is no fault of corrupt code. -/
structure Outcome.Sound (S : Function → Prop) (outcome : Outcome) : Prop where
  globals : outcome.machine.globals.In S
  result : ∀ error, outcome.result = .error error → ¬error.fault.IsCorruption

theorem Progress.Sound.outcome {progress : Progress} (h : progress.Sound S depth) {outcome : Outcome}
    (houtcome : progress.outcome? = some outcome) : outcome.Sound S := by
  cases progress with
  | running m => cases houtcome
  | done m =>
    cases houtcome
    exact ⟨h, fun error herror => by cases herror⟩
  | failed m fault =>
    cases houtcome
    refine ⟨h.1, fun error herror => ?_⟩
    cases herror
    exact h.2

theorem run_sound (hfamily : Function.Family S depth) (hhosts : hosts.Keeps S) (hglobals : m.globals.In S)
    {script : Function} (hscript : S script) {fuel : Nat} {outcome : Outcome}
    (hrun : m.run hosts fuel script = some outcome) : outcome.Sound S := by
  have hstart := start_sound hfamily hglobals hscript
  unfold Machine.run at hrun
  split at hrun
  · rename_i m₀ heq
    rw [heq] at hstart
    exact (Disciplined.advance hfamily hhosts hstart fuel).outcome hrun
  · exact hstart.outcome hrun

theorem runWatched_sound (hfamily : Function.Family S depth) (hhosts : hosts.Keeps S)
    (hglobals : m.globals.In S) {script : Function} (hscript : S script) {fuel : Nat} {outcome : Outcome}
    (hrun : m.runWatched hosts fuel script = some outcome) : outcome.Sound S := by
  have hstart := start_sound hfamily hglobals hscript
  unfold Machine.runWatched at hrun
  split at hrun
  · rename_i m₀ heq
    rw [heq] at hstart
    obtain ⟨plain, hplain, rfl⟩ := Option.map_eq_some_iff.mp hrun
    rw [watch_fst] at hplain
    have hsound := (Disciplined.advance hfamily hhosts hstart fuel).outcome hplain
    exact ⟨hsound.globals, hsound.result⟩
  · exact hstart.outcome hrun

end Machine

/-! ### Requests -/

namespace Session

/-- A request that runs only what the compiler makes. -/
def Request.FromSource : Request → Prop
  | .interpret _ | .roundTrip _ | .defineNative _ _ => True
  | .run _ | .load _ => False

/-- The source text that a request runs. -/
def Request.source? : Request → Option String
  | .interpret source | .roundTrip source => some source
  | .run _ | .load _ | .defineNative _ _ => none

/-- The machines of sessions that begin with a new one and run only what the compiler makes. -/
inductive Reached (limits : Limits) (sink : Sink) : Machine → Prop
  | new : Reached limits sink (Machine.new limits sink)
  | answer {m : Machine} {setting : Setting} {request : Request} {reply : Reply} (h : Reached limits sink m)
    (hhost : setting.host.Faithful) (hrequest : request.FromSource)
      (hreply : answer setting m request = some reply) :
    Reached limits sink reply.machine

/-- A reply that leaves only functions in a set among the globals and is no fault of corrupt code. -/
structure Reply.Sound (S : Function → Prop) (reply : Reply) : Prop where
  globals : reply.machine.globals.In S
  result : ∀ error, reply.result = .error (.runtime error) → ¬error.fault.IsCorruption

section

variable {S : Function → Prop} {depth : Function → Nat → Option Nat} {setting : Setting} {m : Machine}

theorem run_sound (hfamily : Function.Family S depth) (hhost : setting.host.Keeps S) (hglobals : m.globals.In S)
    {script : Function} (hscript : S script) {log : List Log.Record} {reply : Reply}
    (hreply : run setting m script log = some reply) : reply.Sound S := by
  obtain ⟨outcome, houtcome, rfl⟩ := Option.map_eq_some_iff.mp hreply
  have hsound : outcome.Sound S := by
    split at houtcome
    · exact Machine.runWatched_sound hfamily hhost hglobals hscript houtcome
    · exact Machine.run_sound hfamily hhost hglobals hscript houtcome
  refine ⟨hsound.globals, fun error herror => hsound.result error ?_⟩
  dsimp only at herror
  cases hresult : outcome.result with
  | ok value =>
    rw [hresult] at herror
    cases herror
  | error error' =>
    rw [hresult] at herror
    cases herror
    rfl

end

variable {setting : Setting} {m : Machine} {reply : Reply} {depth : Function → Nat → Option Nat}

/-- What a request of a session comes to: it runs the script of its source text, it adds a routine of the host
    to the globals, or it has at most reported something. -/
theorem answer_cases {request : Request} (hrequest : request.FromSource)
    (hreply : answer setting m request = some reply) :
    (∃ source script log, request.source? = some source ∧ compile source = .ok script ∧
      run setting m script log = some reply) ∨
      (∃ name routine, reply.machine = m.defineNative name routine ∧ ∀ error,
        reply.result ≠ .error (.runtime error)) ∨
      ∃ sink, reply.machine = { m with sink } ∧ ∀ error, reply.result ≠ .error (.runtime error) := by
  cases request with
  | interpret source =>
    rw [answer] at hreply
    unfold interpret at hreply
    dsimp only at hreply
    split at hreply
    · rename_i script hcompile
      exact Or.inl ⟨source, script, _, rfl, hcompile, hreply⟩
    · cases hreply
      exact Or.inr (Or.inr ⟨_, rfl, fun error herror => by cases herror⟩)
  | roundTrip source =>
    rw [answer] at hreply
    unfold roundTrip at hreply
    dsimp only at hreply
    split at hreply
    · cases hreply
      exact Or.inr (Or.inr ⟨m.sink, rfl, fun error herror => by cases herror⟩)
    · rename_i script hcompile
      split at hreply
      · cases hreply
        exact Or.inr (Or.inr ⟨m.sink, rfl, fun error herror => by cases herror⟩)
      · rename_i image hencode
        unfold load at hreply
        split at hreply
        · cases hreply
          exact Or.inr (Or.inr ⟨m.sink, rfl, fun error herror => by cases herror⟩)
        · rename_i loaded hdecode
          cases Image.decode_encode hencode hdecode
          exact Or.inl ⟨source, script, _, rfl, hcompile, hreply⟩
  | defineNative name routine =>
    cases hreply
    exact Or.inr (Or.inl ⟨name, routine, rfl, fun error herror => by cases herror⟩)
  | run script | load image => exact absurd hrequest id

theorem answer_sound (hfamily : Function.Family Function.Compiled depth)
    (hhost : setting.host.Keeps Function.Compiled)
    (hglobals : m.globals.In Function.Compiled) {request : Request} (hrequest : request.FromSource)
    (hreply : answer setting m request = some reply) : reply.Sound Function.Compiled := by
  rcases answer_cases hrequest hreply with
    ⟨source, script, log, -, hcompile, hrun⟩ | ⟨name, routine, hmachine, hresult⟩ | ⟨sink, hmachine, hresult⟩
  · exact run_sound hfamily hhost hglobals ⟨source, script, hcompile, script.mem_all_self⟩ hrun
  · refine ⟨?_, fun error herror => absurd herror (hresult error)⟩
    rw [hmachine]
    exact hglobals.define name fun id f heq => by cases heq
  · refine ⟨?_, fun error herror => absurd herror (hresult error)⟩
    rw [hmachine]
    exact hglobals

/-- The functions among the globals of a session are compiled. -/
theorem Reached.globals {limits : Limits} {sink : Sink} (h : Reached limits sink m) :
    m.globals.In Function.Compiled := by
  obtain ⟨depth, hfamily⟩ := Machine.exists_family_compiled
  induction h with
  | new => exact Machine.globals_new _ _ _
  | answer h hhost hrequest hreply ih => exact (answer_sound hfamily (hhost.keeps _) ih hrequest hreply).globals

/-- Compiled code never trips an internal fault: no request of a session ends with a fault of corrupt code, or
    with an error that is worded as one, unless a routine of the host complained in these words. -/
theorem no_corruption (limits : Limits) (sink : Sink) (h : Reached limits sink m)
    (hhost : setting.host.Faithful)
    {request : Request} (hrequest : request.FromSource) (hreply : answer setting m request = some reply)
    {error : RuntimeError} (herror : reply.result = .error (.runtime error)) : ¬error.fault.IsCorruption ∧
      ∀ corrupt : Fault, corrupt.IsCorruption → error.fault.message = corrupt.message →
        ∃ complaint, error.fault = .native complaint := by
  obtain ⟨depth, hfamily⟩ := Machine.exists_family_compiled
  have hsound := (answer_sound hfamily (hhost.keeps _) h.globals hrequest hreply).result error herror
  refine ⟨hsound, fun corrupt hcorrupt hmessage => ?_⟩
  rcases Fault.isCorruption_of_message hcorrupt hmessage with hfault | hnative
  · exact absurd hfault hsound
  · exact hnative

/-- A function that came from an image and is called by a later request, which then fails. -/
theorem no_corruption_later :
    ∃ (m : Machine) (setting : Setting) (request : Request) (reply : Reply) (error : RuntimeError),
    Reached {} {} m ∧ answer setting m request = some reply ∧ reply.result = .error (.runtime error) ∧
    ¬error.fault.IsCorruption := by
  let setting : Setting := { host := Hosts.clock Float.ofNat, fuel := 20 }
  have hhost : setting.host.Faithful := Hosts.faithful_clock _
  have hruns : (match answer setting (Machine.new {} {}) (.roundTrip "fun f() { return nil; }") with
      | some first => match answer setting first.machine (.interpret "f() + f();") with
        | some second => match second.result with
          | .error (.runtime _) => true
          | _ => false
        | none => false
      | none => false) = true := by decide +kernel
  split at hruns
  · rename_i first hfirst
    split at hruns
    · rename_i second hsecond
      split at hruns
      · rename_i error herror
        have hrequest : (Request.roundTrip "fun f() { return nil; }").FromSource := trivial
        have hrequest' : (Request.interpret "f() + f();").FromSource := trivial
        have hreached : Reached {} {} first.machine := .answer .new hhost hrequest hfirst
        have h := no_corruption {} {} hreached hhost hrequest' hsecond herror
        exact ⟨first.machine, setting, _, second, error, hreached, hsecond, herror, h.1⟩
      · cases hruns
    · cases hruns
  · cases hruns

end Session

end Lox
