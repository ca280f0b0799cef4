import Lox.Proofs.Simulation.Statement

/-! # Calls

A call of a function begins with its arguments as locals, above the values of its caller, and ends with its
result in the place of the function and the arguments. So a machine follows every call, by induction on the
fuel: the instruction of the call makes up for the unit of fuel that is left less for what happens inside. -/

namespace Lox

open Lox.Tree (State Library Run)
open Machine (Follows)

/-! ### Bodies -/

namespace Scope

theorem names_ofRoutine {name : Option String} {r : Routine} (hlegal : r.Legal name) :
    (ofRoutine name r.parameters).names = r.parameters.reverse ++ [""] := by
  cases name with
  | none =>
    rw [hlegal.script rfl]
    rfl
  | some name => simp [ofRoutine, names, Function.comp_def]

theorem depth_ofRoutine (name : Option String) (parameters : List String) :
    ((ofRoutine name parameters).depth == 0) = name.isNone := by
  cases name <;> rfl

end Scope

theorem Routine.Legal.length_parameters {name : Option String} {r : Routine} (h : r.Legal name) :
    r.parameters.length ≤ 255 := by
  obtain ⟨place, parameters, body, line⟩ := r
  have hallowed := h.allowed
  rw [Routine.Allowed] at hallowed
  exact hallowed.1

theorem Routine.arity_function (r : Routine) (name : Option String) :
    (r.function name).arity = operandByte r.parameters.length := by
  obtain ⟨place, parameters, body, line⟩ := r
  rw [Routine.function]

/-- The code of a legal routine is that of its body, with a return of nil at its end. -/
theorem Routine.Legal.laid {name : Option String} {r : Routine} (h : r.Legal name) :
    (r.function name).chunk.constants.length ≤ Chunk.maxConstants ∧ (Scope.ofRoutine name r.parameters).Roomy ∧
    Decl.AllAllowed name.isNone (Scope.ofRoutine name r.parameters) r.body ∧
    (Decl.codes (Scope.ofRoutine name r.parameters) 0 r.body).Laid (r.function name).chunk 0 0 ∧
    Instruction.read (r.function name).chunk.code (Decl.lengths name.isNone r.body) = .instruction .nil ∧
    Instruction.read (r.function name).chunk.code (Decl.lengths name.isNone r.body + 1) =
      .instruction .ret := by
  have hnames := congrArg List.length (Scope.names_ofRoutine h)
  obtain ⟨place, parameters, body, line⟩ := r
  have hallowed := h.allowed
  rw [Routine.Allowed] at hallowed
  obtain ⟨hlength, -, hbody, hroom⟩ := hallowed
  have hroomy : (Scope.ofRoutine name parameters).Roomy := by
    simp only [Scope.names, List.length_map, List.length_append, List.length_reverse,
      List.length_singleton] at hnames
    rw [Scope.Roomy, hnames]
    exact Nat.succ_le_succ hlength
  rw [Routine.function]
  dsimp only
  let scope := Scope.ofRoutine name parameters
  let code := Decl.codes scope 0 body ++ .single line (scope.afterAll body).height .nil ++
    .single line ((scope.afterAll body).height + 1) .ret
  have hlaid :
      code.Laid { code := code.bytes.toArray, lines := code.lines.toArray, constants := code.constants } 0 0 :=
    ⟨Item.along_read code.items, Constant.pooled_self code.constants⟩
  obtain ⟨hhead, hret⟩ := Fragment.laid_append.mp hlaid
  obtain ⟨hfirst, hnil⟩ := Fragment.laid_append.mp hhead
  rw [Fragment.size_append, Decl.size_codes, Scope.depth_ofRoutine, Nat.zero_add, Fragment.size_single] at hret
  rw [Decl.size_codes, Scope.depth_ofRoutine, Nat.zero_add] at hnil
  refine ⟨?_, hroomy, hbody, hfirst, hnil.single, hret.single⟩
  simpa [code] using hroom

namespace Stage

variable {E : Stage} {site : Site} {origin fuel : Nat} {call : Tree.Value → List Tree.Value → Run Tree.Value}
  {s : State} {m : Machine} {v : Tree.Value}

/-- The body of a routine, from its beginning to a return. -/
theorem follows_body {name : Option String} {r : Routine} (hlegal : r.Legal name)
    (hfunction : site.function = r.function name)
    (hdeclares : E.Declares site origin (r.declared name)) (hcall : E.FollowsCalls site fuel call)
    (h : E.Shows site (r.parameters.reverse ++ [""]) 0 [] s m) :
    Follows E.host E.Fits fuel m
      ((do
        let result ← Decl.execAll call fuel origin name.isNone r.body
        pure (result.getD .nil)) s)
      (E.Returns site) := by
  obtain ⟨hroom, hroomy, hbody, hlaid, hnil, hret⟩ := hlegal.laid
  rw [← hfunction] at hroom hlaid hnil hret
  rw [← Scope.names_ofRoutine hlegal] at h
  have hall := Decl.followsAll hroom hcall r.body hbody hroomy hlaid hdeclares h
  rw [Scope.depth_ofRoutine, Nat.zero_add] at hall
  refine hall.bind fun result s₁ m₁ h₁ => ?_
  cases result with
  | some v => exact .ok h₁
  | none =>
    obtain ⟨m₂, hstep, h₂⟩ := Shows.push_step (v := .nil) h₁ hnil trivial fun _ _ => rfl
    exact .next hstep (.ok ⟨_, _, [], hret, h₂⟩)

/-! ### Returns -/

theorem Shows.shrink {names : List String} {place : Nat} {temps : List Tree.Value}
    (h : E.Shows site names place (v :: temps) s m) : m.stack.pop.shrink site.low.size = site.low := by
  rw [h.stack, List.cons_append, Library.pop_stack, Library.shrink_stack]

/-- The end of a call that has a caller. -/
theorem Returns.leave (h : E.Returns site v s m) {frame : Frame} {callers : List Frame}
    (hcallers : site.callers = frame :: callers) :
    ∃ m', Machine.step E.host m = .next m' ∧ v.Known E.library ∧ E.Fits s m' ∧ m'.frames = site.callers ∧
      m'.stack = site.low.push (v.compiled E.library) := by
  obtain ⟨names, place, temps, hread, h⟩ := h
  obtain ⟨m₁, hstep, h₁⟩ := h.fetch hread
  refine ⟨{ m₁ with stack := site.low.push (v.compiled E.library), frames := site.callers }, hstep.trans ?_,
    h₁.temp List.mem_cons_self, ⟨h₁.fits.globals, h₁.fits.known, h₁.fits.sink, h₁.fits.limits⟩, rfl, rfl⟩
  rw [Machine.perform, Machine.leave, h₁.peek, h₁.frames, hcallers]
  dsimp only [Site.frame]
  rw [h₁.shrink]

/-- The end of the script. -/
theorem Returns.finish (h : E.Returns site v s m) (hcallers : site.callers = []) :
    ∃ m', Machine.step E.host m = .done m' ∧ E.Fits s m' := by
  obtain ⟨names, place, temps, hread, h⟩ := h
  obtain ⟨m₁, hstep, h₁⟩ := h.fetch hread
  refine ⟨{ m₁ with stack := site.low, frames := [] }, hstep.trans ?_,
    ⟨h₁.fits.globals, h₁.fits.known, h₁.fits.sink, h₁.fits.limits⟩⟩
  rw [Machine.perform, Machine.leave, h₁.peek, h₁.frames, hcallers]
  dsimp only [Site.frame]
  rw [h₁.shrink]

end Stage

/-! ### Calls -/

/-- The site of a function that is called with `below` left on the stack, while its caller
    goes on at `place`. -/
def Site.enter (site : Site) (L : Library) (place : Nat) (below : List Tree.Value) (id : ObjectId)
    (function : Function) : Site :=
  ⟨id, function, L.stack site.low below, site.frame place :: site.callers⟩

namespace Stage

variable {E : Stage} {site : Site} {names : List String} {place : Nat} {temps arguments : List Tree.Value}
    {s : State}
  {m : Machine} {callee v : Tree.Value} {count : UInt8}

theorem Shows.peekCallee (h : E.Shows site names place (arguments.reverse ++ callee :: temps) s m)
    (hcount : arguments.length = count.toNat) : m.peek? count.toNat = some (callee.compiled E.library) := by
  have hstack := h.stack
  rw [List.append_assoc, List.cons_append] at hstack
  rw [← hcount, ← List.length_reverse]
  exact Library.peek_stack arguments.reverse hstack

theorem Shows.size_call (h : E.Shows site names place (arguments.reverse ++ callee :: temps) s m)
    (hcount : arguments.length = count.toNat) :
    m.stack.size = (E.library.stack site.low (temps ++ s.locals.map Prod.snd)).size + (count.toNat + 1) := by
  rw [h.stack, Library.size_stack, Library.size_stack]
  simp only [List.length_append, List.length_reverse, List.length_cons]
  omega

/-- The stack of a machine about to make a call: the callee above what stays, and the arguments above it. -/
theorem Shows.stack_call (h : E.Shows site names place (arguments.reverse ++ callee :: temps) s m) :
    m.stack = E.library.stack site.low (temps ++ s.locals.map Prod.snd) ++
      (callee.compiled E.library :: arguments.map (·.compiled E.library)).toArray := by
  rw [h.stack, List.append_assoc, List.cons_append, Library.stack_append, Library.stack_cons, Library.stack]
  simp

/-- A routine of the host gets the arguments, and its result takes the place of the call. -/
theorem Shows.callNative (h : E.Shows site names place (arguments.reverse ++ callee :: temps) s m)
    (hcount : arguments.length = count.toNat) (native : Native) :
    Machine.callNative E.host m native count = match E.natives native.routine arguments with
      | .error complaint => .fault m (.native complaint)
      | .ok v =>
        .next { m with
          stack := (E.library.stack site.low (temps ++ s.locals.map Prod.snd)).push
            (v.compiled E.library) } := by
  have hsize := h.size_call hcount
  have hstack := h.stack_call
  have hknown : ∀ v ∈ arguments, v.Known E.library :=
    fun v hv => h.temp (List.mem_append_left _ (List.mem_reverse.mpr hv))
  have harguments : m.stack.extract (m.stack.size - count.toNat) m.stack.size =
      (arguments.map (·.compiled E.library)).toArray := by
    have hfirst : m.stack.size - count.toNat =
        (E.library.stack site.low (temps ++ s.locals.map Prod.snd)).size + 1 := by omega
    have hextract := Machine.extract_append (E.library.stack site.low (temps ++ s.locals.map Prod.snd))
      (callee.compiled E.library :: arguments.map (·.compiled E.library)).toArray 1 (count.toNat + 1)
    rw [hfirst, hsize, hstack, hextract]
    simp [← hcount]
  have hbelow : m.stack.shrink (m.stack.size - count.toNat - 1) =
      E.library.stack site.low (temps ++ s.locals.map Prod.snd) := by
    have hfirst : m.stack.size - count.toNat - 1 =
        (E.library.stack site.low (temps ++ s.locals.map Prod.snd)).size + 0 := by omega
    rw [hfirst, hstack, Machine.shrink_append]
    simp
  unfold Machine.callNative
  rw [if_neg (by omega)]
  dsimp only
  rw [harguments, E.agree _ _ hknown, hbelow]
  cases E.natives native.routine arguments <;> rfl

/-- The locals of a call: its arguments under the names of the parameters, and the function that is called. -/
theorem values_locals {parameters : List String} (hlength : arguments.length = parameters.length) :
    ((parameters.zip arguments).reverse ++ [("", callee)]).map Prod.snd = arguments.reverse ++ [callee] := by
  rw [List.map_append, List.map_reverse, List.map_snd_zip (Nat.le_of_eq hlength)]
  rfl

/-- A call of a function leaves what is below the callee, and has the callee and the arguments as its locals. -/
theorem Shows.enter (h : E.Shows site names place (arguments.reverse ++ callee :: temps) s m)
    (hcount : arguments.length = count.toNat) {parameters : List String}
    (hlength : arguments.length = parameters.length) (id : ObjectId) (function : Function) :
    E.Shows (site.enter E.library place (temps ++ s.locals.map Prod.snd) id function)
      (parameters.reverse ++ [""]) 0 []
      { s with locals := (parameters.zip arguments).reverse ++ [("", callee)] }
      { m with frames := ⟨id, function, 0, m.stack.size - (count.toNat + 1)⟩ :: m.frames } where
  fits := ⟨h.fits.globals, h.fits.known, h.fits.sink, h.fits.limits⟩
  frames := by
    have hslots : m.stack.size - (count.toNat + 1) =
        (E.library.stack site.low (temps ++ s.locals.map Prod.snd)).size := by
      rw [h.size_call hcount]
      omega
    show _ :: m.frames = _
    rw [hslots, h.frames]
    rfl
  stack := by
    show m.stack = E.library.stack (E.library.stack _ _) _
    rw [values_locals hlength, List.nil_append, ← Library.stack_append, h.stack]
    simp
  names := by
    rw [List.map_append, List.map_reverse, List.map_fst_zip (Nat.le_of_eq hlength.symm)]
    rfl
  values := by
    rw [values_locals hlength, List.nil_append]
    intro v hv
    refine h.values v (List.mem_append_left _ ?_)
    rcases List.mem_append.mp hv with hv | hv
    · exact List.mem_append_left _ hv
    · exact List.mem_append_right _ (List.mem_cons.mpr (Or.inl (List.mem_singleton.mp hv)))

/-- A call of a function is followed if its body is, with one unit of fuel less. -/
theorem Shows.follows_function {fuel : Nat} {origin : Nat} {name : Option String} {r : Routine}
    (h : E.Shows site names place (arguments.reverse ++ .function origin name r :: temps) s m)
    (hread : Instruction.read site.function.chunk.code place = .instruction (.call count))
    (hcount : arguments.length = count.toNat)
    (hcalls : ∀ site' : Site, site'.callers.length = site.callers.length + 1 →
      E.FollowsCalls site' fuel (Tree.call E.natives E.maxFrames fuel (site'.callers.length + 1))) :
    Follows E.host E.Fits (fuel + 1) m
      (Tree.call E.natives E.maxFrames (fuel + 1) (site.callers.length + 1)
        (.function origin name r) arguments s)
      fun v s' m' => E.Shows site names (place + 2) (v :: temps) s' m' := by
  have hholds : E.library.Holds origin name r := h.temp (List.mem_append_right _ List.mem_cons_self)
  have hlegal := E.library.legal hholds
  have hsmall := hlegal.length_parameters
  obtain ⟨m₁, hstep, h₁⟩ := h.fetch hread
  have hcall : Machine.step E.host m = m₁.callFunction (E.library.object origin r.place)
      (r.function name) count := by
    rw [hstep, Machine.perform, Machine.call, h₁.peekCallee hcount]
    rfl
  have hframes : m₁.frames.length = site.callers.length + 1 := by
    rw [h₁.frames]
    rfl
  have hmax : m₁.limits.maxFrames = E.maxFrames := by rw [h₁.fits.limits]
  have hsize := h₁.size_call hcount
  rw [Machine.callFunction, r.arity_function, hmax, hframes] at hcall
  rw [Tree.call]
  by_cases hlength : arguments.length = r.parameters.length
  · have hsame : count = operandByte r.parameters.length := by
      apply UInt8.toNat_inj.mp
      rw [toNat_operandByte (by omega), ← hlength, hcount]
    rw [if_neg (not_not_intro hsame)] at hcall
    rw [if_neg (not_not_intro hlength)]
    by_cases hfull : E.maxFrames ≤ site.callers.length + 1
    · rw [if_pos hfull] at hcall
      rw [if_pos hfull]
      exact .fault hcall h₁.fits
    · rw [if_neg hfull, if_neg (by omega)] at hcall
      rw [if_neg hfull]
      -- The unit of fuel is made up for by the instruction of the call.
      refine .succ hcall ?_
      have hentered := h₁.enter hcount hlength (E.library.object origin r.place) (r.function name)
      have hbody := follows_body hlegal rfl (fun d hd => E.library.inside hholds d hd) (hcalls _ rfl) hentered
      refine hbody.withLocals fun v s' m₂ hreturns => ?_
      obtain ⟨m₃, hleave, hv, hfits, hframes', hstack⟩ := hreturns.leave rfl
      refine .next hleave (.ok ⟨⟨hfits.globals, hfits.known, hfits.sink, hfits.limits⟩, hframes', ?_,
        h.names, ?_⟩)
      · rw [hstack, List.cons_append, Library.stack_cons]
        rfl
      · refine List.forall_mem_cons.mpr ⟨hv, fun w hw => ?_⟩
        rcases List.mem_append.mp hw with hw | hw
        · exact h.temp (List.mem_append_right _ (List.mem_cons_of_mem _ hw))
        · exact h.values w (List.mem_append_right _ hw)
  · have hdiffers : count ≠ operandByte r.parameters.length := by
      intro heq
      rw [heq, toNat_operandByte (by omega)] at hcount
      exact hlength hcount
    rw [if_pos hdiffers] at hcall
    rw [if_pos hlength]
    have hargument : UInt8.ofNat arguments.length = count := by rw [hcount, UInt8.ofNat_toNat]
    rw [hargument]
    exact .fault hcall h₁.fits

/-- A machine follows every call. -/
theorem followsCalls (E : Stage) (fuel : Nat) (site : Site) :
    E.FollowsCalls site fuel (Tree.call E.natives E.maxFrames fuel (site.callers.length + 1)) := by
  induction fuel generalizing site with
  | zero =>
    intro names place temps s m count callee arguments _ _ _
    exact ⟨m, rfl⟩
  | succ fuel ih =>
    intro names place temps s m count callee arguments hread hcount h
    obtain ⟨m₁, hstep, h₁⟩ := h.fetch hread
    have hcall : Machine.step E.host m = Machine.call E.host m₁ count := hstep
    rw [Machine.call, h₁.peekCallee hcount] at hcall
    cases callee with
    | nil | bool | number | string => exact .fault hcall h₁.fits
    | native id native =>
      have hknown : ∀ v ∈ arguments, v.Known E.library :=
        fun v hv => h.temp (List.mem_append_left _ (List.mem_reverse.mpr hv))
      have hnative : Machine.step E.host m = Machine.callNative E.host m₁ native count := hcall
      rw [h₁.callNative hcount] at hnative
      rw [Tree.call]
      cases hresult : E.natives native.routine arguments with
      | error complaint =>
        rw [hresult] at hnative
        exact .fault hnative h₁.fits
      | ok v =>
        rw [hresult] at hnative
        refine .next hnative
          (.ok (h₁.restack ?_ (List.forall_mem_cons.mpr ⟨E.faithful _ _ _ hknown hresult, ?_⟩)))
        · rw [List.cons_append, Library.stack_cons]
        · exact fun w hw => h.temp (List.mem_append_right _ (List.mem_cons_of_mem _ hw))
    | function origin name r => exact h.follows_function hread hcount fun site' _ => ih site'

end Stage

end Lox
