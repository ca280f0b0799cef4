import Lox.Proofs.Image.Running
import Lox.Proofs.Machine.Limits
import Lox.Proofs.Sequence.Embedding
import Lox.Proofs.Session

/-! # Sessions and programs

To interpret one text after another in a session is to interpret one text that is both of them. The outcome is
the same, the output is the same but for the lines in the trace of an error, and the globals are alike. -/

namespace Lox

/-! ### The host -/

/-- Functions with a property are matched with themselves. -/
def Matching.diagonal (P : ObjectId → Function → Prop)
    (hinside : ∀ {i f k g}, P i f → f.chunk.constants[k]? = some (.function g) → P (i.child k) g) :
    Matching where
  Holds i f j g := i = j ∧ f = g ∧ P i f
  unlined h := congrArg Function.unlined h.2.1
  inside := by
    rintro i f _ _ k f' g' ⟨rfl, rfl, h⟩ hf hg
    cases hf.symm.trans hg
    exact ⟨rfl, rfl, hinside h hf⟩
  native h _ := h.1
  injective := by
    rintro _ _ _ _ _ _ _ _ ⟨rfl, -, -⟩ ⟨rfl, -, -⟩
    exact Iff.rfl

theorem Value.like_diagonal {P : ObjectId → Function → Prop}
    {hinside : ∀ {i f k g}, P i f → f.chunk.constants[k]? = some (.function g) → P (i.child k) g} {v : Value} :
    v.Like (Matching.diagonal P hinside) v ↔ ∀ id f, v = .function id f → P id f := by
  constructor
  · rintro h id f rfl
    cases h with
    | same hv => exact absurd rfl (hv id f)
    | function h => exact h.2.2
  · intro h
    cases v with
    | function id f => exact .function ⟨rfl, rfl, h id f rfl⟩
    | nil | bool | number | string | native => exact .same fun _ _ heq => by cases heq

/-! ### Runs -/

namespace Machine

variable {hosts : Hosts} {m : Machine}

/-- Functions of compiled programs with depths at which they flow, which are given for one of them. -/
theorem exists_family_at {f : Function} {depth : Nat → Option Nat} (hflows : f.Flows depth) :
    ∃ depths, Function.Family Function.Compiled depths ∧ depths f = depth := by
  classical
  obtain ⟨depths, hfamily⟩ := exists_family_compiled
  refine ⟨fun g => if g = f then depth else depths g, ⟨fun {g} hg => ?_, hfamily.constant⟩, if_pos rfl⟩
  split
  · rename_i heq
    rwa [heq]
  · exact hfamily.flows hg

/-- The machine at the beginning of a run. -/
def opened (m : Machine) (script : Function) : Machine :=
  { m.loaded script with frames := [⟨⟨m.nextOrigin, []⟩, script, 0, 0⟩] }

theorem start_script {script : Function} (harity : script.arity = 0) (hframes : m.limits.maxFrames ≠ 0) :
    m.start script = .running (m.opened script) := by
  rw [start_eq, if_neg (not_not_intro harity), if_neg hframes]
  rfl

theorem progress_script {script : Function} (harity : script.arity = 0) (hframes : m.limits.maxFrames ≠ 0)
    (fuel : Nat) :
    m.progress hosts fuel script = advance hosts (m.opened script) fuel := by
  rw [progress, start_script harity hframes]

/-- A run that has ended without a fault was allowed a call. -/
theorem maxFrames_of_done {script : Function} {fuel : Nat} {last : Machine}
    (h : m.progress hosts fuel script = .done last) :
    m.limits.maxFrames ≠ 0 := by
  intro hframes
  rw [progress, start_eq, if_pos hframes] at h
  by_cases harity : script.arity ≠ 0
  · rw [if_pos harity] at h
    cases h
  · rw [if_neg harity] at h
    cases h

/-- Globals that hold only functions from before two scripts are like themselves. -/
theorem like_sequence {globals : Globals} {origin : Nat} (count : Nat)
    (hcompiled : globals.In Function.Compiled)
    (hfirst : globals.Foreign origin) (hsecond : globals.Foreign (origin + 1)) :
    globals.Like (Matching.sequence origin count) globals := by
  refine List.forall₂_same.mpr fun entry hentry => ⟨rfl, ?_⟩
  cases hvalue : entry.2 with
  | function id f =>
    exact .function ⟨hcompiled entry hentry id f hvalue, rfl,
      .old (hfirst entry hentry id f hvalue) (hsecond entry hentry id f hvalue)⟩
  | nil | bool | number | string | native => exact .same fun _ _ heq => by cases heq

theorem likeStack_of_size {M : Matching} {a b : Array Value} {base : Nat} (ha : a.size = base)
    (hb : b.size = base) :
    Value.LikeStack M base a b where
  size := hb.trans ha.symm
  values k hk := by
    rw [Array.getElem?_eq_none (ha ▸ hk), Array.getElem?_eq_none (hb ▸ hk)]
    exact .none

variable {first second whole : Function} {x y z : Fragment}

theorem disciplined_opened {depth : Function → Nat → Option Nat}
    (hfamily : Function.Family Function.Compiled depth)
    (hglobals : m.globals.In Function.Compiled) {script : Function} (hscript : script.Compiled)
    (harity : script.arity = 0)
    (hframes : m.limits.maxFrames ≠ 0) : Disciplined Function.Compiled depth (m.opened script) := by
  have hstart := start_sound hfamily hglobals hscript
  rwa [start_script harity hframes] at hstart

/-- A run of the first script that ends has come to its end, and a run of the whole comes to the same
    place. What lasts of the first is then like what the whole has, and nothing but the script is
    left on the stack. -/
structure Hands (m : Machine) (first whole : Function) (x : Fragment) (last m₁ : Machine) : Prop where
  size : m₁.stack.size = 1
  frames : m₁.frames = [⟨⟨m.nextOrigin, []⟩, whole, x.size, 0⟩]
  compiled : last.globals.In Function.Compiled
  globals : last.globals.Like (Matching.sequence m.nextOrigin x.constants.length) m₁.globals
  limits : last.limits = m.limits
  limits' : m₁.limits = m.limits
  nextOrigin : last.nextOrigin = m.nextOrigin + 1
  sink : m₁.sink = last.sink

theorem runs_before (h : Bodies first second whole x y z) (hfirst : first.Compiled)
    (hhosts : hosts.Steady (Matching.sequence m.nextOrigin x.constants.length))
    (hkeeps : hosts.Keeps Function.Compiled)
    (hglobals : m.globals.In Function.Compiled) (hforeign : m.globals.Foreign m.nextOrigin)
    (hforeign' : m.globals.Foreign (m.nextOrigin + 1)) (hsteps : m.limits.maxSteps = none)
    (hframes : m.limits.maxFrames ≠ 0) {fuel : Nat} {last : Machine}
    (hdone : advance hosts (m.opened first) fuel = .done last) :
    ∃ n m₁, advance hosts (m.opened whole) n = .running m₁ ∧ m.Hands first whole x last m₁ := by
  obtain ⟨line, hmakes⟩ := h.first.makes
  obtain ⟨depth, hfamily, hdepth⟩ := exists_family_at hmakes.flowsFunction
  let t := Bodies.before m.nextOrigin first whole x
  let M := Matching.sequence m.nextOrigin x.constants.length
  have hlike : (m.opened first).Like M 1 t.floor (m.opened whole) :=
    ⟨likeStack_of_size rfl rfl, .outer ⟨0, Nat.zero_le _, rfl, rfl⟩,
      like_sequence _ hglobals hforeign hforeign', rfl, .inl hsteps, rfl⟩
  have hm := disciplined_opened hfamily hglobals hfirst h.first.arity hframes
  have hinside : ∀ ip height, ip < x.size → depth first ip = some height →
      ∃ item, item.height = height ∧ t.Matches M ip item ∧ item.instruction ≠ .ret := by
    intro ip height hip hheight
    have hmatches : (x.ended line).Along
        (fun offset item => offset < x.size → t.Matches M offset item ∧ item.instruction ≠ .ret) 0 := by
      refine Fragment.along_ended.mpr ⟨?_, fun hlt => absurd hlt (Nat.lt_irrefl _),
        fun hlt => absurd hlt (by omega)⟩
      exact (h.matches_before hfirst m.nextOrigin).mono fun offset item hitem _ => hitem
    rw [hdepth] at hheight
    obtain ⟨item, hitem, hfound⟩ := Item.Along.exists_of_heightAt hmatches hheight
    rw [Nat.zero_add] at hfound
    exact ⟨item, hitem, hfound hip⟩
  obtain ⟨n, rest, m₁, m₁', hrun, hrun', hm₁, hlike₁, hframes₁, hdone₁⟩ := Tandem.reaches hfamily hhosts hkeeps
    (fun ip hip => hip) hinside hm hlike hdone
  -- There the first script has only its return before it, and its height is that of a script
  -- between two statements.
  obtain ⟨-, ⟨hnil, hheight⟩, hret, -⟩ :=
    Fragment.along_ended.mp (hmakes.reads.and (Item.along_heightAt (x.ended line).items))
  obtain ⟨hglobals', hsink, hretains⟩ := ends_of_return hframes₁ hnil hret hdone₁
  have hretains' := retains_advance hosts (m.opened first) n
  rw [hrun] at hretains'
  have hstacked := hm₁.stacked
  rw [hframes₁] at hstacked
  obtain ⟨⟨-, height, hheight', hsize⟩, -⟩ := hstacked
  cases (congrFun hdepth x.size).symm.trans hheight' |>.symm.trans hheight
  obtain ⟨ip, -, hip, hframes₁'⟩ := Tandem.only hlike₁ hframes₁
  cases hip.symm.trans hframes₁
  refine ⟨n, m₁', hrun', ?_, hframes₁', ?_, ?_, ?_, ?_, ?_, ?_⟩
  · exact hlike₁.stack.size.trans hsize
  · rw [hglobals']
    exact hm₁.globals
  · rw [hglobals']
    exact hlike₁.globals
  · exact hretains.limits.trans hretains'.limits
  · exact hlike₁.limits.trans hretains'.limits
  · exact hretains.nextOrigin.trans hretains'.nextOrigin
  · exact hlike₁.sink.trans hsink.symm

/-- From there on, the second script and the whole run in tandem. -/
theorem Hands.runs_after {last m₁ : Machine} (hands : m.Hands first whole x last m₁)
    (h : Bodies first second whole x y z)
    (hsecond : second.Compiled) (hhosts : hosts.Steady (Matching.sequence m.nextOrigin x.constants.length))
    (hkeeps : hosts.Keeps Function.Compiled) (hsteps : m.limits.maxSteps = none)
    (hframes : m.limits.maxFrames ≠ 0) (fuel : Nat) :
    Progress.Like (Matching.sequence m.nextOrigin x.constants.length) 1
      (Bodies.after m.nextOrigin second whole x).floor (advance hosts (last.opened second) fuel)
        (advance hosts m₁ fuel) := by
  obtain ⟨line, hmakes⟩ := h.second.makes
  obtain ⟨depth, hfamily, hdepth⟩ := exists_family_at hmakes.flowsFunction
  have hlimits := hands.limits
  let t := Bodies.after m.nextOrigin second whole x
  let M := Matching.sequence m.nextOrigin x.constants.length
  have hlike : (last.opened second).Like M 1 t.floor m₁ := by
    refine ⟨likeStack_of_size rfl hands.size, .outer ⟨0, trivial, ?_, ?_⟩, hands.globals, ?_, .inl ?_,
      hands.sink⟩
    · show [Frame.mk ⟨last.nextOrigin, []⟩ second 0 0] = _
      rw [hands.nextOrigin]
      rfl
    · rw [hands.frames, Nat.zero_add]
      rfl
    · exact hands.limits'.trans hlimits.symm
    · show last.limits.maxSteps = none
      rw [hlimits, hsteps]
  have hm := disciplined_opened hfamily hands.compiled hsecond h.second.arity (by rwa [hlimits])
  refine @Like.advance M 1 t.floor hosts _ _ (fun m _ => Disciplined Function.Compiled depth m)
    (fun hm h' => ?_) (fun hm hstep _ => ?_) hm hlike fuel
  · refine Tandem.step hfamily hhosts hm h' fun ip height _ _ hheight => ?_
    rw [show depth t.script = _ from hdepth] at hheight
    obtain ⟨item, hitem, hmatches⟩ :=
      Item.Along.exists_of_heightAt (h.matches_after hsecond m.nextOrigin hmakes) hheight
    rw [Nat.zero_add] at hmatches
    exact ⟨item, hitem, hmatches⟩
  · have hnext := hm.step hfamily hkeeps
    rwa [hstep] at hnext

end Machine

/-! ### Machines between requests -/

/-- A machine between the requests of a session: its functions are compiled, and no new object is
    one of its globals. -/
structure Machine.Ready (m : Machine) : Prop where
  compiled : m.globals.In Function.Compiled
  fresh : ∀ origin, m.nextOrigin ≤ origin → m.globals.Foreign origin

/-- The functions with an origin below a bound. -/
def Matching.below (bound : Nat) : Matching := Matching.diagonal (fun id _ => id.origin < bound) fun h _ => h

theorem Globals.like_below {globals : Globals} {bound : Nat} :
    globals.Like (Matching.below bound) globals ↔ ∀ origin, bound ≤ origin → globals.Foreign origin := by
  constructor
  · intro h origin hle entry hentry id f heq hid
    have hlt := Value.like_diagonal.mp (List.forall₂_same.mp h entry hentry).2 id f heq
    omega
  · intro h
    refine List.forall₂_same.mpr fun entry hentry => ⟨rfl, Value.like_diagonal.mpr fun id f heq => ?_⟩
    exact Nat.lt_of_not_le fun hle => h id.origin hle entry hentry id f heq rfl

/-- A host that makes no functions gives none of new objects. -/
theorem Hosts.Faithful.respects_below {hosts : Hosts} (h : hosts.Faithful) (bound : Nat) :
    hosts.Respects (Matching.below bound) := by
  intro step routine a b hab
  have hself : ∀ v w : Value, v.Like (Matching.below bound) w → v = w := by
    intro v w hvw
    cases hvw with
    | same => rfl
    | function hvw => rw [hvw.1, hvw.2.1]
  have heq : a.toList = b.toList := List.forall₂_eq_eq_eq ▸ hab.imp hself
  obtain rfl := Array.toList_inj.mp heq
  cases hresult : hosts.during step routine a with
  | error complaint => exact .error _
  | ok value =>
    refine .ok (Value.like_diagonal.mpr fun id f hvalue => ?_)
    have hmem := Array.mem_toList_iff.mpr (h step routine a value hresult id f hvalue)
    exact Value.like_diagonal.mp (List.forall₂_same.mp hab value hmem) id f hvalue

namespace Machine

variable {hosts : Hosts} {m : Machine} {script : Function}

/-- A run leaves only functions of known objects among the globals. -/
theorem fresh_progress (hhosts : hosts.Faithful)
    (hfresh : ∀ origin, m.nextOrigin ≤ origin → m.globals.Foreign origin)
    (script : Function) (fuel : Nat) : (m.progress hosts fuel script).machine.nextOrigin = m.nextOrigin + 1 ∧
      (m.progress hosts fuel script).machine.globals.Like (Matching.below (m.nextOrigin + 1))
        (m.progress hosts fuel script).machine.globals := by
  have hglobals : m.globals.Like (Matching.below (m.nextOrigin + 1)) m.globals :=
    Globals.like_below.mpr fun origin hle => hfresh origin (Nat.le_of_succ_le hle)
  by_cases harity : script.arity = 0
  · by_cases hframes : m.limits.maxFrames = 0
    · rw [progress, start_eq, if_neg (not_not_intro harity), if_pos hframes]
      exact ⟨rfl, hglobals⟩
    · rw [progress_script harity hframes]
      have hholds : (Matching.below (m.nextOrigin + 1)).Holds ⟨m.nextOrigin, []⟩ script
          ⟨m.nextOrigin, []⟩ script := ⟨rfl, rfl, Nat.lt_succ_self _⟩
      have hlike : (m.opened script).Alike (Matching.below (m.nextOrigin + 1)) (m.opened script) :=
        ⟨.single (.function hholds), .call ⟨hholds, rfl, rfl, Nat.le_refl _⟩ (.outer ⟨rfl, rfl⟩), hglobals, rfl,
          .inr rfl, rfl⟩
      have hrun := Alike.advance (hhosts.respects_below _) rfl hlike fuel
      have hretains := retains_advance hosts (m.opened script) fuel
      generalize advance hosts (m.opened script) fuel = p at hrun hretains ⊢
      refine ⟨hretains.nextOrigin, ?_⟩
      cases hrun with
      | running h => exact h.globals
      | done hglobals => exact hglobals
      | failed h => exact h.globals
  · rw [progress, start_eq, if_pos harity]
    exact ⟨rfl, hglobals⟩

theorem Ready.defineNative (h : m.Ready) (name routine : String) : (m.defineNative name routine).Ready where
  compiled := h.compiled.define name fun id f heq => by cases heq
  fresh := by
    refine Globals.like_below.mp (Globals.Like.define ?_ name (.same fun id f heq => by cases heq))
    exact Globals.like_below.mpr fun origin hle => h.fresh origin (Nat.le_of_succ_le hle)

theorem ready_new (limits : Limits) (sink : Sink) : (Machine.new limits sink).Ready :=
  Ready.defineNative ⟨fun _ h => absurd h List.not_mem_nil,
    fun _ _ _ h => absurd h List.not_mem_nil⟩ "clock" "clock"

end Machine

/-! ### Replies -/

/-- Calls of the second script and of the whole have the same names in a trace. -/
theorem Machine.Like.trace_names {M : Matching} {t : Machine.Tandem} {m m' : Machine}
    (h : m.Like M 1 t.floor m') (hname : t.script'.frameName = t.script.frameName) :
    m'.trace.map (·.function) = m.trace.map (·.function) := by
  have hframes := h.frames
  unfold Machine.trace
  generalize m.frames = frames, m'.frames = frames' at hframes
  induction hframes with
  | outer houter =>
    obtain ⟨ip, -, rfl, rfl⟩ := houter
    exact congrArg ([·]) hname
  | call hframe _ ih =>
    have hsame := Function.frameName_of_unlined (M.unlined hframe.holds)
    simp only [List.map_cons, ih, Frame.entry, hsame]

namespace Session

variable {setting : Setting} {m : Machine} {script : Function} {reply : Reply}

/-- Requests that end in the same way: both without an error and with the same output, or with the same fault
    in calls of the same names. The report of an error is then the only output that can differ. -/
inductive Reply.SameEnd : Reply → Reply → Prop
  | ok {reply reply' : Reply} (h : reply.result = .ok ()) (h' : reply'.result = .ok ())
    (hsink : reply'.machine.sink = reply.machine.sink) : SameEnd reply reply'
  | error {reply reply' : Reply} {fault : Fault} {trace trace' : List TraceEntry} {printed : Sink}
    (h : reply.result = .error (.runtime ⟨fault, trace⟩))
      (h' : reply'.result = .error (.runtime ⟨fault, trace'⟩))
    (htrace : trace'.map (·.function) = trace.map (·.function))
    (hsink : reply.machine.sink = (printed.write (RuntimeError.text ⟨fault, trace⟩ ++ "\n")).2)
    (hsink' : reply'.machine.sink = (printed.write (RuntimeError.text ⟨fault, trace'⟩ ++ "\n")).2) :
      SameEnd reply reply'

/-- Replies that a program cannot tell apart. -/
structure Reply.Agrees (M : Matching) (reply reply' : Reply) : Prop where
  ends : reply.SameEnd reply'
  globals : reply.machine.globals.Like M reply'.machine.globals

/-- A request to run a script has no reply, or the outcome of the run. -/
theorem run_cases (setting : Setting) (m : Machine) (script : Function) (log : List Log.Record) :
    (run setting m script log = none ∧ (m.progress setting.host setting.fuel script).outcome? = none) ∨
      ∃ outcome log', (m.progress setting.host setting.fuel script).outcome? = some outcome ∧
        run setting m script log = some ⟨outcome.machine, outcome.result.mapError .runtime, log'⟩ := by
  -- To watch the run adds only notes.
  have hnotes : ∃ notes : List Log.Record,
      (if setting.watched then m.runWatched setting.host setting.fuel script
      else m.run setting.host setting.fuel script) =
          (m.progress setting.host setting.fuel script).outcome?.map fun outcome =>
        { outcome with log := notes ++ outcome.log } := by
    split
    · unfold Machine.runWatched Machine.progress
      cases m.start script with
      | running m₀ =>
        dsimp only
        rw [← Machine.watch_fst setting.host m₀ #[] setting.fuel]
        exact ⟨_, rfl⟩
      | done m₁ | failed m₁ fault => exact ⟨[], rfl⟩
    · rw [Machine.run_eq]
      exact ⟨[], Option.map_id'.symm⟩
  obtain ⟨notes, hnotes⟩ := hnotes
  unfold run
  dsimp only
  rw [hnotes]
  cases (m.progress setting.host setting.fuel script).outcome? with
  | none => exact .inl ⟨rfl, rfl⟩
  | some outcome => exact .inr ⟨outcome, _, rfl, rfl⟩

theorem run_eq_none {log : List Log.Record} {m₁ : Machine}
    (h : m.progress setting.host setting.fuel script = .running m₁) : run setting m script log = none := by
  rcases run_cases setting m script log with ⟨hnone, -⟩ | ⟨outcome, log', houtcome, -⟩
  · exact hnone
  · rw [h] at houtcome
    cases houtcome

/-- A request that ends without an error has come to the end of its script. -/
theorem progress_of_ok {log : List Log.Record} (hreply : run setting m script log = some reply)
    (hok : reply.result = .ok ()) : m.progress setting.host setting.fuel script = .done reply.machine := by
  rcases run_cases setting m script log with ⟨hnone, -⟩ | ⟨outcome, log', houtcome, hsome⟩
  · cases hnone.symm.trans hreply
  · cases hsome.symm.trans hreply
    cases hprogress : m.progress setting.host setting.fuel script with
    | running m₁ =>
      rw [hprogress] at houtcome
      cases houtcome
    | done m₁ =>
      rw [hprogress] at houtcome
      cases houtcome
      rfl
    | failed m₁ fault =>
      rw [hprogress] at houtcome
      cases houtcome
      cases hok

theorem exists_reply (log : List Log.Record) {outcome : Machine.Outcome}
    (h : (m.progress setting.host setting.fuel script).outcome? = some outcome) :
    ∃ log', run setting m script log = some ⟨outcome.machine, outcome.result.mapError .runtime, log'⟩ := by
  rcases run_cases setting m script log with ⟨-, hnone⟩ | ⟨outcome', log', houtcome, hsome⟩
  · cases hnone.symm.trans h
  · cases houtcome.symm.trans h
    exact ⟨log', hsome⟩

/-- Runs in tandem have replies that agree. -/
theorem agrees_of_like {M : Matching} {t : Machine.Tandem} (hname : t.script'.frameName = t.script.frameName)
    {setting setting' : Setting} {m m' : Machine} {script script' : Function} (log log' : List Log.Record)
    (h : Machine.Progress.Like M 1 t.floor (m.progress setting.host setting.fuel script)
      (m'.progress setting'.host setting'.fuel script')) :
    Option.Rel (Reply.Agrees M) (run setting m script log) (run setting' m' script' log') := by
  generalize hp : m.progress setting.host setting.fuel script = p,
    hp' : m'.progress setting'.host setting'.fuel script' = p' at h
  cases h with
  | running h =>
    rw [run_eq_none hp, run_eq_none hp']
    exact .none
  | done hglobals hsink =>
    obtain ⟨notes, hreply⟩ := exists_reply log (congrArg Machine.Progress.outcome? hp)
    obtain ⟨notes', hreply'⟩ := exists_reply log' (congrArg Machine.Progress.outcome? hp')
    rw [hreply, hreply']
    exact .some ⟨.ok rfl rfl hsink, hglobals⟩
  | @failed m₁ m₁' h fault =>
    obtain ⟨notes, hreply⟩ := exists_reply log (congrArg Machine.Progress.outcome? hp)
    obtain ⟨notes', hreply'⟩ := exists_reply log' (congrArg Machine.Progress.outcome? hp')
    rw [hreply, hreply']
    refine .some ⟨.error rfl rfl (h.trace_names hname) rfl ?_, h.globals⟩
    show (m₁'.sink.write _).2 = (m₁.sink.write _).2
    rw [h.sink]

/-- What a request runs leaves only functions of known objects among the globals. -/
theorem fresh_run {log : List Log.Record} (hhost : setting.host.Faithful)
    (hfresh : ∀ origin, m.nextOrigin ≤ origin → m.globals.Foreign origin)
    (hreply : run setting m script log = some reply) :
    ∀ origin, reply.machine.nextOrigin ≤ origin → reply.machine.globals.Foreign origin := by
  obtain ⟨horigin, hlike⟩ := Machine.fresh_progress hhost hfresh script setting.fuel
  rcases run_cases setting m script log with ⟨hnone, -⟩ | ⟨outcome, log', houtcome, hsome⟩
  · cases hnone.symm.trans hreply
  · cases hsome.symm.trans hreply
    generalize m.progress setting.host setting.fuel script = p at horigin hlike houtcome
    rw [← horigin] at hlike
    cases p with
    | running m₁ => cases houtcome
    | done m₁ | failed m₁ fault =>
      cases houtcome
      exact Globals.like_below.mp hlike

theorem fresh_answer (hhost : setting.host.Faithful) (h : m.Ready) {request : Request}
    (hrequest : request.FromSource) (hreply : answer setting m request = some reply) :
    ∀ origin, reply.machine.nextOrigin ≤ origin → reply.machine.globals.Foreign origin := by
  rcases answer_cases hrequest hreply with ⟨source, script, log, -, -, hrun⟩ | ⟨name, routine, hmachine, -⟩ |
    ⟨sink, hmachine, -⟩
  · exact fresh_run hhost h.fresh hrun
  · rw [hmachine]
    exact (h.defineNative name routine).fresh
  · rw [hmachine]
    exact h.fresh

/-- The machine of a session is ready between any two requests. -/
theorem Reached.ready {limits : Limits} {sink : Sink} (h : Reached limits sink m) : m.Ready := by
  induction h with
  | new => exact Machine.ready_new limits sink
  | answer h hhost hrequest hreply ih =>
    exact ⟨(Reached.answer h hhost hrequest hreply).globals, fresh_answer hhost ih hrequest hreply⟩

theorem interpret_eq {source : String} (h : compile source = .ok script) (setting : Setting) (m : Machine) :
    interpret setting m source = run setting m script (compilationLog (compileTokens (Token.scan source))) := by
  unfold interpret
  dsimp only
  rw [show (compileTokens (Token.scan source)).result = .ok script from h]

/-- A session agrees with the program that is both its texts, one after the other. If each text
    compiles and so does the whole, and the first ends without an error, then the second ends exactly
    if the whole does, with the same outcome and output up to lines in the report of an error, and with
    globals that are alike. -/
theorem interpret_append {a b : String} {first second whole : Function} (ha : compile a = .ok first)
    (hb : compile b = .ok second) (hc : compile (a ++ "\n" ++ b) = .ok whole) (hready : m.Ready)
    (hsteady : ∀ count, setting.host.Steady (Matching.sequence m.nextOrigin count))
    (hkeeps : setting.host.Keeps Function.Compiled) (hsteps : m.limits.maxSteps = none)
    (hreply : interpret setting m a = some reply) (hok : reply.result = .ok ()) :
    ∃ (M : Matching) (n : Nat), (∀ fuel ≤ n, interpret { setting with fuel } m (a ++ "\n" ++ b) = none) ∧
      ∀ fuel, Option.Rel (Reply.Agrees M) (interpret { setting with fuel } reply.machine b)
        (interpret { setting with fuel := n + fuel } m (a ++ "\n" ++ b)) := by
  have hfirst : first.Compiled := ⟨a, first, ha, first.mem_all_self⟩
  have hsecond : second.Compiled := ⟨b, second, hb, second.mem_all_self⟩
  obtain ⟨x, y, z, hbodies⟩ := exists_bodies ha hb hc
  rw [interpret_eq ha] at hreply
  have hdone := progress_of_ok hreply hok
  have hframes := Machine.maxFrames_of_done hdone
  rw [Machine.progress_script hbodies.first.arity hframes] at hdone
  obtain ⟨n, m₁, hrun, hands⟩ := Machine.runs_before hbodies hfirst (hsteady _) hkeeps hready.compiled
    (hready.fresh _ (Nat.le_refl _)) (hready.fresh _ (Nat.le_succ _)) hsteps hframes hdone
  refine ⟨Matching.sequence m.nextOrigin x.constants.length, n, fun fuel hle => ?_, fun fuel => ?_⟩
  · obtain ⟨m₂, hrun₂⟩ := Machine.running_of_le hrun hle
    rw [interpret_eq hc]
    exact run_eq_none ((Machine.progress_script hbodies.whole.arity hframes fuel).trans hrun₂)
  · have hlike := hands.runs_after hbodies hsecond (hsteady _) hkeeps hsteps hframes fuel
    have hframes' : reply.machine.limits.maxFrames ≠ 0 := by rwa [hands.limits]
    rw [← Machine.advance_of_running hrun, ← Machine.progress_script hbodies.second.arity hframes',
      ← Machine.progress_script hbodies.whole.arity hframes] at hlike
    rw [interpret_eq hb, interpret_eq hc]
    refine agrees_of_like ?_ _ _ hlike
    show whole.frameName = second.frameName
    rw [Function.frameName, Function.frameName, hbodies.whole.name, hbodies.second.name]

/-- The second text calls a function of the first by another name, and that fails. -/
theorem interpret_append_error :
    let setting : Setting := { host := Host.standard 0, fuel := 20 }
    let m := Machine.new {} {}
    let a := "fun f() { f + f; }"
    let b := "var k = f; k();"
    ∃ (reply second whole : Reply) (error : RuntimeError) (M : Matching) (n : Nat),
    interpret setting m a = some reply ∧
      reply.result = .ok () ∧ interpret setting reply.machine b = some second ∧
      second.result = .error (.runtime error) ∧
      interpret { setting with fuel := n + setting.fuel } m (a ++ "\n" ++ b) = some whole ∧
      second.Agrees M whole := by
  intro setting m a b
  have hruns : (compile a).toOption.any (fun _ => (compile b).toOption.any fun _ =>
      (compile (a ++ "\n" ++ b)).toOption.any fun _ => (interpret setting m a).any fun reply =>
        reply.result.toOption.isSome && (interpret setting reply.machine b).any fun second =>
          second.result.toOption.isNone) = true := by decide +kernel
  have hsteady (M : Matching) : setting.host.Steady M := fun _ _ => Host.like_standard M 0
  have hkeeps : setting.host.Keeps Function.Compiled := (Host.faithful_standard 0).always.keeps _
  have hready : m.Ready := Reached.ready .new
  have hsteps : m.limits.maxSteps = none := rfl
  clear_value setting m a b
  obtain ⟨_, ha, hruns⟩ := exists_ok_of_any hruns
  obtain ⟨_, hb, hruns⟩ := exists_ok_of_any hruns
  obtain ⟨_, hc, hruns⟩ := exists_ok_of_any hruns
  obtain ⟨reply, hreply, hruns⟩ := (Option.any_eq_true _ _).mp hruns
  obtain ⟨hends, hruns⟩ := Bool.and_eq_true_iff.mp hruns
  obtain ⟨second, hsecond, hfails⟩ := (Option.any_eq_true _ _).mp hruns
  have hok : reply.result = .ok () := by
    cases hresult : reply.result with
    | ok => rfl
    | error failure =>
      rw [hresult] at hends
      cases hends
  obtain ⟨M, n, -, hrel⟩ := interpret_append ha hb hc hready (fun _ => hsteady _) hkeeps hsteps hreply hok
  have hagrees := hrel setting.fuel
  rw [hsecond] at hagrees
  generalize hwhole : interpret _ m (a ++ "\n" ++ b) = whole at hagrees
  cases hagrees with
  | some h =>
    cases h.ends with
    | ok hresult =>
      rw [hresult] at hfails
      cases hfails
    | error hresult => exact ⟨reply, second, _, _, M, n, hreply, hok, hsecond, hresult, hwhole, h⟩

/-- A host whose routine tells the first line of a function. -/
def lineTelling : Host := fun _ arguments =>
  match (arguments[0]? : Option Value) with
  | some (.function _ f) => .ok (.string (toString ((f.chunk.line? 0).getD 0)))
  | _ => .ok .nil

/-- A host whose routine gives a function that takes more from the stack than its own. -/
def stackTaking : Host := fun _ _ =>
  .ok (.function ⟨7, []⟩
      { chunk := { code := #[Opcode.pop.byte, Opcode.pop.byte, Opcode.nil.byte, Opcode.ret.byte] } })

/-- Two texts that compile print something else one after the other than as one, where the first ends
    without an error. -/
def Parted (host : Host) (a b printed printed' : String) : Prop :=
  let setting : Setting := { host, fuel := 40 }
  let m := (Machine.new {} {}).defineNative "ask" "ask"
  ∃ before after both reply second whole, compile a = .ok before ∧ compile b = .ok after ∧
    compile (a ++ "\n" ++ b) = .ok both ∧ interpret setting m a = some reply ∧ reply.result = .ok () ∧
    interpret setting reply.machine b = some second ∧
    interpret setting m (a ++ "\n" ++ b) = some whole ∧ second.machine.sink.bytes = printed.toUTF8 ∧
    whole.machine.sink.bytes = printed'.toUTF8

theorem parted_of_runs {host : Host} {a b printed printed' : String}
    (h : let setting : Setting := { host, fuel := 40 }
      let m := (Machine.new {} {}).defineNative "ask" "ask"
      (compile a).toOption.any fun _ => (compile b).toOption.any fun _ =>
        (compile (a ++ "\n" ++ b)).toOption.any fun _ => (interpret setting m a).any fun reply =>
          reply.result.toOption.any fun _ => (interpret setting reply.machine b).any fun second =>
            (interpret setting m (a ++ "\n" ++ b)).any fun whole =>
              second.machine.sink.bytes.data = printed.toUTF8.data ∧
                whole.machine.sink.bytes.data = printed'.toUTF8.data) :
    Parted host a b printed printed' := by
  obtain ⟨before, ha, h⟩ := exists_ok_of_any h
  obtain ⟨after, hb, h⟩ := exists_ok_of_any h
  obtain ⟨both, hc, h⟩ := exists_ok_of_any h
  obtain ⟨reply, hreply, h⟩ := (Option.any_eq_true _ _).mp h
  obtain ⟨_, hok, h⟩ := exists_ok_of_any h
  obtain ⟨second, hsecond, h⟩ := (Option.any_eq_true _ _).mp h
  obtain ⟨whole, hwhole, h⟩ := (Option.any_eq_true _ _).mp h
  obtain ⟨hprinted, hprinted'⟩ := of_decide_eq_true h
  exact ⟨before, after, both, reply, second, whole, ha, hb, hc, hreply, hok, hsecond, hwhole,
    ByteArray.ext hprinted, ByteArray.ext hprinted'⟩

/-- A routine that looks at lines tells a session from the whole program, and so does one that makes a
    function with corrupt code. -/
theorem interpret_append_parted :
    Parted lineTelling "var x;" "fun f() {}\nprint ask(f);" "1\n" "2\n" ∧
      Parted stackTaking "ask()();" "{ var x; print x; }" "nil\n"
        "Local slot 1 out of range.\n[line 2] in script\n" :=
  ⟨parted_of_runs (by decide +kernel), parted_of_runs (by decide +kernel)⟩

end Session

end Lox
