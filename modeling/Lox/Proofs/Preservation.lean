import Lox.Proofs.Simulation.Archive
import Lox.Proofs.Simulation.Call

/-! # Preservation of meaning

A run of a compiled program ends in a certain way, after certain output and with certain globals, exactly if
the evaluation of its tree does. If the evaluation uses up its fuel, the run makes at least as many steps; so
if the run ends, the evaluation does, and since the run follows it, they end alike. -/

namespace Lox

open Lox.Tree (State Library)
open Machine (Follows Progress)

/-! ### How runs end -/

namespace Machine

variable {hosts : Hosts} {m : Machine} {script : Function} {n k : Nat}

/-- What is written after the output of a run: the text of an error. -/
def Outcome.notice (o : Outcome) : String :=
  match o.result with
  | .ok _ => ""
  | .error error => error.text ++ "\n"

/-- A run whose sink had some bytes before ends with a result, after some output, and leaves some globals. -/
structure Outcome.Ends (o : Outcome) (before : ByteArray) (result : Except Fault Unit) (output : String)
    (globals : List (String × Value)) : Prop where
  result : o.result.mapError RuntimeError.fault = result
  output : o.machine.sink.bytes = before ++ (output ++ o.notice).toUTF8
  globals : o.machine.globals.entries = globals

/-- A run ends in one way. -/
theorem Outcome.Ends.unique {o : Outcome} {before : ByteArray} {result result' : Except Fault Unit}
    {output output' : String}
    {globals globals' : List (String × Value)} (h : o.Ends before result output globals)
    (h' : o.Ends before result' output' globals') : result = result' ∧ output = output' ∧
    globals = globals' := by
  refine ⟨h.result.symm.trans h'.result, ?_, h.globals.symm.trans h'.globals⟩
  have hbytes := (ByteArray.append_right_inj before).mp (h.output.symm.trans h'.output)
  simpa using String.toByteArray_inj.mp hbytes

/-- What has come of a run stays if it is given more fuel. -/
theorem outcome?_add {o : Outcome} (h : (advance hosts m n).outcome? = some o) :
    (advance hosts m (n + k)).outcome? = some o := by
  rw [advance_add]
  cases hn : advance hosts m n with
  | running m' =>
    rw [hn] at h
    cases h
  | done m' =>
    rw [hn] at h
    exact h
  | failed m' fault =>
    rw [hn] at h
    exact h

theorem run_add {o : Outcome} (h : m.run hosts n script = some o) : m.run hosts (n + k) script = some o := by
  unfold run at h ⊢
  cases hstart : m.start script with
  | running m' =>
    rw [hstart] at h
    exact outcome?_add h
  | done m' =>
    rw [hstart] at h
    exact h
  | failed m' fault =>
    rw [hstart] at h
    exact h

/-- What comes of a run does not depend on its fuel. -/
theorem run_unique {o o' : Outcome} (h : m.run hosts n script = some o)
    (h' : m.run hosts k script = some o') : o = o' := by
  have hmore := run_add (k := k) h
  rw [Nat.add_comm, run_add h'] at hmore
  exact (Option.some.inj hmore).symm

end Machine

/-! ### Runs of compiled programs -/

namespace Stage

variable {E : Stage} {s : State} {m : Machine}

/-- The globals of a state, in the machine. -/
def entries (E : Stage) (globals : List (String × Tree.Value)) : List (String × Value) :=
  globals.map fun entry => (entry.1, entry.2.compiled E.library)

theorem Fits.ends_done (h : E.Fits s m) :
    Machine.Outcome.Ends ⟨m, .ok (), []⟩ E.before (.ok ()) s.output (E.entries s.globals) := by
  refine ⟨rfl, ?_, h.globals⟩
  rw [h.sink]
  simp [Machine.Outcome.notice]

/-- A run that a fault stops has the error written after its output. -/
theorem Fits.ends_fail (h : E.Fits s m) (fault : Fault) :
    (m.fail fault).Ends E.before (.error fault) s.output (E.entries s.globals) := by
  refine ⟨rfl, ?_, h.globals⟩
  simp [Machine.fail, Machine.report, Machine.reset, Machine.Outcome.notice, Sink.write, h.sink,
    ByteArray.append_assoc]

variable {r : Routine} {globals : List (String × Tree.Value)}

/-- The machine that runs a program shows the state in which the evaluation of its body begins. -/
theorem Fits.shows_loaded (h : E.Fits ⟨[], globals, ""⟩ m) (hholds : E.library.Holds m.nextOrigin none r)
    (hobject : E.library.object m.nextOrigin r.place = ⟨m.nextOrigin, []⟩) :
    E.Shows ⟨⟨m.nextOrigin, []⟩, r.function none, #[], []⟩ (r.parameters.reverse ++ [""]) 0 []
      ⟨[("", .function m.nextOrigin none r)], globals, ""⟩
      { m.loaded (r.function none) with frames := [⟨⟨m.nextOrigin, []⟩, r.function none, 0, 0⟩] } where
  fits := ⟨h.globals, h.known, h.sink, h.limits⟩
  frames := rfl
  stack := by
    show #[_] = E.library.stack #[] [.function m.nextOrigin none r]
    rw [Library.stack_cons, Tree.Value.compiled, hobject]
    rfl
  names := by
    rw [(E.library.legal hholds).script rfl]
    rfl
  values := by
    intro v hv
    rw [List.mem_singleton.mp hv]
    exact hholds

/-- The call of a program, from the beginning of its body to its last return. -/
theorem Fits.follows_script (h : E.Fits ⟨[], globals, ""⟩ m) (hholds : E.library.Holds m.nextOrigin none r)
    (hobject : E.library.object m.nextOrigin r.place = ⟨m.nextOrigin, []⟩) (hframes : E.maxFrames ≠ 0)
    (fuel : Nat) :
    Follows E.host E.Fits fuel
      { m.loaded (r.function none) with frames := [⟨⟨m.nextOrigin, []⟩, r.function none, 0, 0⟩] }
      (Tree.call E.natives E.maxFrames (fuel + 1) 0 (.function m.nextOrigin none r) [] ⟨[], globals, ""⟩)
      fun _ s' m' => ∃ m₁, Machine.step E.host m' = .done m₁ ∧ E.Fits s' m₁ := by
  have hlegal := E.library.legal hholds
  have hparameters := hlegal.script rfl
  have hdeclares : E.Declares ⟨⟨m.nextOrigin, []⟩, r.function none, #[], []⟩ m.nextOrigin
      (r.declared none) := by
    intro d hd
    obtain ⟨hinside, hchild⟩ := E.library.inside hholds d hd
    exact ⟨hinside, hchild.trans (by rw [hobject])⟩
  have hbody := follows_body hlegal rfl hdeclares (E.followsCalls fuel _) (h.shows_loaded hholds hobject)
  rw [Tree.call, if_neg (by rw [hparameters]; simp), if_neg (by omega), hparameters]
  refine hbody.withLocals fun v s' m' hreturns => ?_
  obtain ⟨m₁, hstep, hfits⟩ := hreturns.finish rfl
  exact .ok ⟨m₁, hstep, ⟨hfits.globals, hfits.known, hfits.sink, hfits.limits⟩⟩

/-- What comes of a run by its fuel agrees with what came of an evaluation: if that used up its fuel, the run
    uses up as much, and otherwise the run ends as the evaluation did. -/
def Agrees (E : Stage) (fuel : Nat) (outcome? : Nat → Option Machine.Outcome) (x : Option Tree.Outcome) :
    Prop :=
  match x with
  | none => outcome? fuel = none
  | some x => (∀ entry ∈ x.globals, entry.2.Known E.library) ∧ ∃ n o, outcome? n = some o ∧
      o.Ends E.before x.result x.output (E.entries x.globals)

theorem agrees_of_follows {fuel : Nat} {x : Option (Except Fault Tree.Value × State)}
    (h : Follows E.host E.Fits fuel m x fun _ s' m' => ∃ m₁, Machine.step E.host m' = .done m₁ ∧ E.Fits s' m₁) :
    E.Agrees fuel (fun n => (Machine.advance E.host m n).outcome?) (x.map fun (result, s) =>
      { result := result.map fun _ => (), output := s.output, globals := s.globals }) := by
  rcases x with _ | ⟨fault | v, s⟩
  · obtain ⟨m₁, hrun⟩ := h
    exact congrArg Progress.outcome? hrun
  · obtain ⟨n, m₁, hrun, hfits⟩ := h
    exact ⟨hfits.known, n, m₁.fail fault, congrArg Progress.outcome? hrun, hfits.ends_fail fault⟩
  · obtain ⟨n, m₁, hrun, m₂, hstep, hfits⟩ := h
    have hdone : Machine.advance E.host m (n + 1) = .done m₂ := by
      rw [Machine.advance_of_running hrun, Machine.advance, hstep]
    exact ⟨hfits.known, n + 1, ⟨m₂, .ok (), []⟩, congrArg Progress.outcome? hdone, hfits.ends_done⟩

/-- A run of a program agrees with its evaluation. -/
theorem Fits.agrees (h : E.Fits ⟨[], globals, ""⟩ m) (hholds : E.library.Holds m.nextOrigin none r)
    (hobject : E.library.object m.nextOrigin r.place = ⟨m.nextOrigin, []⟩) (fuel : Nat) :
    E.Agrees fuel (fun n => m.run E.host n (r.function none))
      (Tree.evaluate E.natives E.maxFrames (fuel + 1) m.nextOrigin r globals) := by
  have hparameters := (E.library.legal hholds).script rfl
  have harity : (r.function none).arity = 0 := by
    rw [r.arity_function, hparameters]
    rfl
  have hmax : m.limits.maxFrames = E.maxFrames := by rw [h.limits]
  have hstart := Machine.start_eq m (r.function none)
  rw [if_neg (not_not_intro harity), hmax] at hstart
  unfold Tree.evaluate Machine.run
  by_cases hframes : E.maxFrames = 0
  · -- The script itself is one call too many.
    have hloaded : E.Fits ⟨[], globals, ""⟩ (m.loaded (r.function none)) :=
      ⟨h.globals, h.known, h.sink, h.limits⟩
    rw [if_pos hframes] at hstart
    rw [Tree.call, if_neg (by rw [hparameters]; simp), if_pos (by omega), hstart]
    exact ⟨h.known, 0, (m.loaded (r.function none)).fail .stackOverflow, rfl, hloaded.ends_fail _⟩
  · rw [if_neg hframes] at hstart
    rw [hstart]
    exact agrees_of_follows (h.follows_script hholds hobject hframes fuel)

end Stage

/-! ### Evaluation and runs -/

namespace Archive

variable {sources : Nat → String} (A : Archive sources) {host : Host} {natives : Tree.Host}

/-- The stage of runs with the functions of an archive. -/
noncomputable def stage (h : A.Mirrors host natives) (maxFrames : Nat) (before : ByteArray) : Stage where
  library := A.library
  host := host
  natives := natives
  agree routine _ hknown := (matchesResult_iff.mp (h routine _ _ (forall₂_matches.mpr ⟨hknown, rfl⟩))).2
  faithful routine _ value hknown hvalue :=
    (matchesResult_iff.mp (h routine _ _ (forall₂_matches.mpr ⟨hknown, rfl⟩))).1 value hvalue
  maxFrames := maxFrames
  before := before

/-- The machine is at the beginning of a run, with matching globals. -/
theorem fits_stage (h : A.Mirrors host natives) {m : Machine} {globals : List (String × Tree.Value)}
    (hglobals : A.MatchesAll globals m.globals.entries) (hsteps : m.limits.maxSteps = none)
    (hsink : m.sink.capacity = none) :
    (A.stage h m.limits.maxFrames m.sink.bytes).Fits ⟨[], globals, ""⟩ m := by
  obtain ⟨hknown, hentries⟩ := matchesAll_iff.mp hglobals
  refine ⟨hentries.symm, hknown, ?_, ?_⟩
  · rw [← hsink]
    show m.sink = ⟨m.sink.bytes ++ "".toUTF8, m.sink.capacity⟩
    simp
  · rw [← hsteps]
    rfl

/-- A run of a compiled text agrees with the evaluation of its tree. -/
theorem agrees (h : A.Mirrors host natives) {m : Machine} {script : Function}
    {globals : List (String × Tree.Value)}
    (hscript : compile (sources m.nextOrigin) = .ok script) (hglobals : A.MatchesAll globals m.globals.entries)
    (hsteps : m.limits.maxSteps = none) (hsink : m.sink.capacity = none) (fuel : Nat) :
    (A.stage h m.limits.maxFrames m.sink.bytes).Agrees fuel (fun n => m.run host n script)
      (Tree.evaluate natives m.limits.maxFrames (fuel + 1) m.nextOrigin (A.tree m.nextOrigin) globals) := by
  have hhas : A.Has m.nextOrigin [] none (A.tree m.nextOrigin) := ⟨⟨script, hscript⟩, .here⟩
  rw [A.script_eq hscript]
  exact (A.fits_stage h hglobals hsteps hsink).agrees ⟨_, hhas⟩ hhas.object_eq fuel

end Archive

/-- Compilation keeps the meaning of programs. The texts that a machine was given have trees; its globals, if
    their functions were produced from those texts, match globals of an evaluation, and the routines of its
    host, if they make no functions, do the same with the values of one. And then the run of a text that
    compiles ends with a result, after some output and with some globals, exactly if the evaluation of its
    tree ends with the same result, after the same output and with globals that match. -/
theorem run_iff_evaluate {sources : Nat → String} {host : Host} {m : Machine} {script : Function}
    (hscript : compile (sources m.nextOrigin) = .ok script) (hhost : host.Faithful)
    (hglobals : ∀ entry ∈ m.globals.entries, entry.2.Produced sources) (hsteps : m.limits.maxSteps = none)
    (hsink : m.sink.capacity = none) :
    Nonempty (Archive sources) ∧ ∀ A : Archive sources,
      (∃ natives, A.Mirrors host natives) ∧ (∃ globals, A.MatchesAll globals m.globals.entries) ∧
      ∀ natives globals, A.Mirrors host natives → A.MatchesAll globals m.globals.entries →
      ∀ result output finals,
        (∃ fuel o, m.run host fuel script = some o ∧ o.Ends m.sink.bytes result output finals) ↔
        ∃ fuel x, Tree.evaluate natives m.limits.maxFrames fuel m.nextOrigin (A.tree m.nextOrigin) globals =
          some x ∧ x.result = result ∧ x.output = output ∧ A.MatchesAll x.globals finals := by
  refine ⟨Archive.nonempty sources, fun A => ⟨A.exists_mirrors hhost, A.exists_matchesAll hglobals, ?_⟩⟩
  intro natives globals hmirrors hmatches result output finals
  have hagrees := A.agrees hmirrors hscript hmatches hsteps hsink
  constructor
  · rintro ⟨fuel, o, hrun, hends⟩
    have hfuel := hagrees fuel
    cases hevaluate : Tree.evaluate natives m.limits.maxFrames (fuel + 1) m.nextOrigin
      (A.tree m.nextOrigin) globals with
    | none =>
      rw [hevaluate] at hfuel
      exact absurd (hrun.symm.trans hfuel) (by simp)
    | some x =>
      rw [hevaluate] at hfuel
      obtain ⟨hknown, n, o', hrun', hends'⟩ := hfuel
      cases Machine.run_unique hrun hrun'
      obtain ⟨hresult, houtput, hfinals⟩ := hends'.unique hends
      exact ⟨fuel + 1, x, hevaluate, hresult, houtput, Archive.matchesAll_iff.mpr ⟨hknown, hfinals⟩⟩
  · rintro ⟨fuel, x, hevaluate, rfl, rfl, hfinals⟩
    cases fuel with
    | zero => cases hevaluate
    | succ fuel =>
      have hfuel := hagrees fuel
      rw [hevaluate] at hfuel
      obtain ⟨-, n, o, hrun, hends⟩ := hfuel
      exact ⟨n, o, hrun, (Archive.matchesAll_iff.mp hfinals).2 ▸ hends⟩

/-- A text that calls and shows a function of an earlier one, and then fails: so does the
    evaluation of its tree. -/
theorem run_iff_evaluate_later :
    ∃ (sources : Nat → String) (A : Archive sources) (g : Function) (natives : Tree.Host)
    (globals : List (String × Tree.Value)) (fuel : Nat) (x : Tree.Outcome),
    sources 0 = "fun g(a) { return a; }" ∧
    sources 1 = "fun f() { return g; } { var b = f()(true); print b; } print g; print f == g; g = c;" ∧
    A.MatchesAll globals [("g", .function ⟨0, [1]⟩ g)] ∧
    Tree.evaluate natives 64 fuel 1 (A.tree 1) globals = some x ∧
    x.result = .error (.undefinedVariable "c") ∧ x.output = "true\n<fn g>\nfalse\n" := by
  let sources : Nat → String := fun origin =>
    if origin = 0 then "fun g(a) { return a; }"
    else "fun f() { return g; } { var b = f()(true); print b; } print g; print f == g; g = c;"
  have hcompiles : ((compile (sources 0)).toOption.any fun earlier =>
        (compile (sources 1)).toOption.any fun script =>
      earlier.chunk.constants[1]?.any fun constant => constant.typeName == "function" &&
        (Machine.run (Host.standard 0) 40 { globals := ⟨[("g", constant.load ⟨0, [1]⟩)]⟩, nextOrigin := 1 }
          script).any fun o =>
          decide (o.result.mapError RuntimeError.fault = .error (.undefinedVariable "c") ∧
            o.machine.sink.bytes = .empty ++ ("true\n<fn g>\nfalse\n" ++ o.notice).toUTF8)) = true := by
              decide +kernel
  obtain ⟨earlier, hearlier, hcompiles⟩ := exists_ok_of_any hcompiles
  obtain ⟨script, hscript, hconstants⟩ := exists_ok_of_any hcompiles
  obtain ⟨constant, hconstant, hruns⟩ := (Option.any_eq_true _ _).mp hconstants
  cases constant with
  | function g =>
    obtain ⟨o, hrun, hends⟩ := (Option.any_eq_true _ _).mp hruns
    obtain ⟨hfault, hbytes⟩ := of_decide_eq_true hends
    have hproduced : ∀ entry ∈ [("g", Value.function ⟨0, [1]⟩ g)], entry.2.Produced sources := by
      intro entry hentry id f heq
      rw [List.mem_singleton.mp hentry] at heq
      cases heq
      exact ⟨earlier, hearlier, .inside .here hconstant⟩
    obtain ⟨⟨A⟩, hall⟩ := run_iff_evaluate hscript (Host.faithful_standard 0)
      (m := { globals := ⟨[("g", .function ⟨0, [1]⟩ g)]⟩, nextOrigin := 1 }) hproduced rfl rfl
    obtain ⟨⟨natives, hnatives⟩, ⟨globals, hglobals⟩, hiff⟩ := hall A
    obtain ⟨fuel, x, hevaluate, hresult, houtput, -⟩ :=
      (hiff natives globals hnatives hglobals _ _ _).mp ⟨40, o, hrun, hfault, hbytes, rfl⟩
    exact ⟨sources, A, g, natives, globals, fuel, x, rfl, rfl, hglobals, hevaluate, hresult, houtput⟩
  | nil | bool | number | string | native => cases hruns

end Lox
