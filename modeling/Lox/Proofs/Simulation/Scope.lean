import Lox.Proofs.Simulation.Expression

/-! # Scopes and loops

A computed value becomes a local when it is declared and stays on the stack until its scope ends. What
runs in a scope or in a loop comes to the end of its code, or to a return with the returned value on
top of the stack. -/

namespace Lox

open Lox.Tree (State Library Run)
open Machine (Follows)

/-! ### Names in scope -/

/-- The names of the locals in scope. -/
def Scope.names (scope : Scope) : List String := scope.locals.map Local.name

namespace Local

theorem resolve?_eq_none {name : String} {locals : List Local} (h : resolve? name locals = none) :
    name ∉ locals.map Local.name := by
  induction locals with
  | nil => exact List.not_mem_nil
  | cons loc locals ih =>
    rw [resolve?] at h
    split at h <;> rename_i hname
    · cases h
    · rw [List.map_cons, List.mem_cons, not_or]
      exact ⟨Ne.symm hname, ih h⟩

theorem resolve?_eq_some {name : String} {locals : List Local} {slot : Nat} {loc : Local}
    (h : resolve? name locals = some (slot, loc)) :
    ∃ above below, locals.map Local.name = above ++ name :: below ∧
      name ∉ above ∧ below.length = slot := by
  induction locals with
  | nil => cases h
  | cons first locals ih =>
    rw [resolve?] at h
    split at h <;> rename_i hname
    · cases h
      exact ⟨[], locals.map Local.name, by rw [List.map_cons, hname]; rfl, List.not_mem_nil, List.length_map _⟩
    · obtain ⟨above, below, hnames, habove, hbelow⟩ := ih h
      refine ⟨first.name :: above, below, by rw [List.map_cons, hnames]; rfl, ?_, hbelow⟩
      rw [List.mem_cons, not_or]
      exact ⟨Ne.symm hname, habove⟩

end Local

theorem Scope.Roomy.tracks {scope : Scope} (h : scope.Roomy) : Local.Tracks scope.locals scope.names where
  found := fun _ hfound => ⟨Nat.lt_of_lt_of_le (Local.resolve?_lt hfound) h, Local.resolve?_eq_some hfound⟩
  absent := Local.resolve?_eq_none

/-- A local is not among the names that its own initial value can mention. -/
theorem Scope.Roomy.tracks_declared {scope : Scope} (h : scope.Roomy) (name : String) :
    Local.Tracks (⟨name, none⟩ :: scope.locals) scope.names where
  found := by
    intro other slot loc husable hfound
    have husable' := husable slot loc hfound
    rw [Local.resolve?] at hfound
    split at hfound
    · cases hfound
      exact absurd rfl husable'
    · exact ⟨Nat.lt_of_lt_of_le (Local.resolve?_lt hfound) h, Local.resolve?_eq_some hfound⟩
  absent := by
    intro other hfound
    rw [Local.resolve?] at hfound
    split at hfound
    · cases hfound
    · exact Local.resolve?_eq_none hfound

namespace Scope

theorem names_declare (scope : Scope) (name : String) :
    (scope.declare name).names = if scope.depth = 0 then scope.names else name :: scope.names := by
  unfold names declare
  split <;> rfl

theorem names_after_inner (scope : Scope) (name : Option String) :
    (scope.inner.after name).names = name.toList ++ scope.names := by
  cases name with
  | none => rfl
  | some name => exact scope.inner.names_declare name

theorem names_afterAll_inner (scope : Scope) (ds : List Decl) :
    (scope.inner.afterAll ds).names = (ds.filterMap Decl.name?).reverse ++ scope.names := by
  rw [afterAll_eq _ (Nat.succ_ne_zero _)]
  simp [names, inner, Function.comp_def]

/-- At a place, the code makes a computed value a variable. Outside all scopes an instruction makes it a
    global; a local it is already. -/
def Declares (scope : Scope) (chunk : Chunk) (place : Nat) (name : String) : Prop :=
  scope.depth = 0 → ∃ index, chunk.constant? index = some (.string name) ∧
    Instruction.read chunk.code place = .instruction (.defineGlobal index)

end Scope

namespace Stage

variable {E : Stage} {site : Site} {names : List String} {place : Nat} {temps : List Tree.Value} {s : State}
    {m : Machine}
  {fuel : Nat} {v : Tree.Value}

/-! ### Locals and scopes -/

/-- The machine is about to return a value. -/
def Returns (E : Stage) (site : Site) (v : Tree.Value) (s : State) (m : Machine) : Prop :=
  ∃ names place temps, Instruction.read site.function.chunk.code place = .instruction .ret ∧
    E.Shows site names place (v :: temps) s m

/-- The machine has come to a place, or is about to return a value. -/
def Ends (E : Stage) (site : Site) (names : List String) (place : Nat) (result : Option Tree.Value)
    (s : State) (m : Machine) :
    Prop :=
  match result with
  | none => E.Shows site names place [] s m
  | some v => E.Returns site v s m

/-- A computed value becomes a local. -/
theorem Shows.declare (h : E.Shows site names place [v] s m) (name : String) :
    E.Shows site (name :: names) place [] { s with locals := (name, v) :: s.locals } m :=
  ⟨⟨h.fits.globals, h.fits.known, h.fits.sink, h.fits.limits⟩, h.frames, h.stack,
    congrArg (name :: ·) h.names, h.values⟩

/-- The innermost local becomes a computed value. -/
theorem Shows.undeclare {name : String} (h : E.Shows site (name :: names) place [] s m) :
    ∃ v, E.Shows site names place [v] { s with locals := s.locals.tail } m := by
  obtain ⟨⟨name', v⟩, rest, hlocals, -, hrest⟩ := List.map_eq_cons_iff.mp h.names
  have hstack := h.stack
  have hvalues := h.values
  rw [hlocals] at hstack hvalues
  refine ⟨v, ⟨h.fits.globals, h.fits.known, h.fits.sink, h.fits.limits⟩, h.frames, ?_, ?_, ?_⟩
  · rw [hlocals]
    exact hstack
  · rw [hlocals]
    exact hrest
  · rw [hlocals]
    exact hvalues

/-- Pops at the end of a scope. -/
theorem Shows.pops {line : UInt32} {height count : Nat} (above : List String)
    (h : E.Shows site (above ++ names) place [] s m)
    (hlaid : (Fragment.pops line height above.length).Laid site.function.chunk place count) :
    ∃ n m', Machine.advance E.host m n = .running m' ∧
      E.Shows site names (place + above.length) [] { s with locals := s.locals.drop above.length } m' := by
  induction above generalizing place count s m with
  | nil => exact ⟨0, m, rfl, h⟩
  | cons name above ih =>
    obtain ⟨hfirst, hrest⟩ := Fragment.laid_append.mp hlaid
    obtain ⟨v, h₁⟩ := Shows.undeclare h
    obtain ⟨m₁, hstep, h₂⟩ := h₁.pop_step hfirst.single
    obtain ⟨n, m₂, hrun, h₃⟩ := ih h₂ hrest
    refine ⟨n + 1, m₂, ?_, ?_⟩
    · rw [Machine.advance, hstep]
      exact hrun
    · have hdrop : s.locals.tail.drop above.length = s.locals.drop (name :: above).length := by
        rw [List.drop_tail, List.length_cons]
      have hplace : place + 1 + above.length = place + (name :: above).length := by
        rw [List.length_cons]
        omega
      rw [← hdrop, ← hplace]
      exact h₃

/-- A value that is about to be returned is so after the end of a scope. -/
theorem Returns.drop (h : E.Returns site v s m) (count : Nat) :
    E.Returns site v { s with locals := s.locals.drop count } m := by
  obtain ⟨names, place, temps, hread, h⟩ := h
  refine ⟨names.drop count, place, temps ++ (s.locals.take count).map Prod.snd, hread,
    ⟨h.fits.globals, h.fits.known, h.fits.sink, h.fits.limits⟩, h.frames, ?_, ?_, ?_⟩
  · rw [h.stack, List.cons_append, List.cons_append, List.append_assoc, ← List.map_append,
      List.take_append_drop]
  · rw [List.map_drop, h.names]
  · rw [List.cons_append, List.append_assoc, ← List.map_append, List.take_append_drop]
    exact h.values

/-- What runs in a scope of its own is followed by pops of its locals. -/
theorem Shows.follows_inScope {x : Run (Option Tree.Value)} {inside : List String} {end' : Nat} {line : UInt32}
    {height count : Nat} (hlength : s.locals.length = names.length)
    (hlaid : (Fragment.pops line height inside.length).Laid site.function.chunk end' count)
    (h : Follows E.host E.Fits fuel m (x s) (E.Ends site (inside ++ names) end')) :
    Follows E.host E.Fits fuel m (Tree.inScope x s) (E.Ends site names (end' + inside.length)) := by
  rw [Tree.inScope_eq]
  rcases hx : x s with _ | ⟨fault | result, s'⟩ <;> rw [hx] at h
  · exact h
  · exact h
  · obtain ⟨n, m₁, hrun, hends⟩ := h
    refine .after hrun ?_
    cases result with
    | none =>
      have hcount : s'.locals.length - s.locals.length = inside.length := by
        have hnames := congrArg List.length hends.names
        rw [List.length_map, List.length_append] at hnames
        omega
      obtain ⟨k, m₂, hrun', h₂⟩ := Shows.pops inside hends hlaid
      dsimp only
      rw [hcount]
      exact .after hrun' (.ok h₂)
    | some v => exact .ok (Returns.drop hends _)

/-! ### Loops -/

/-- A loop whose parts are followed. Every round takes a step back to the head, which makes up
    for a unit of fuel. -/
theorem follows_repeatWhile {test : Run Bool} {body : Run (Option Tree.Value)} {after : Run Unit}
    {head inner bottom exit : Nat}
    (htest : ∀ {s m}, E.Shows site names head [] s m → Follows E.host E.Fits fuel m (test s) fun b s' m' =>
      E.Shows site names (if b then inner else exit) [] s' m')
    (hbody : ∀ {s m}, E.Shows site names inner [] s m →
      Follows E.host E.Fits fuel m (body s) (E.Ends site names bottom))
    (hafter : ∀ {s m}, E.Shows site names bottom [] s m → ∃ m', Machine.step E.host m = .next m' ∧
      Follows E.host E.Fits fuel m' (after s) fun _ s' m'' => E.Shows site names head [] s' m'')
    {rounds : Nat} (hrounds : rounds ≤ fuel) (h : E.Shows site names head [] s m) :
    Follows E.host E.Fits rounds m (Tree.repeatWhile test body after rounds s) (E.Ends site names exit) := by
  induction rounds generalizing s m with
  | zero => exact ⟨m, rfl⟩
  | succ rounds ih =>
    rw [Tree.repeatWhile]
    refine ((htest h).mono hrounds).bind fun b s₁ m₁ h₁ => ?_
    cases b with
    | false => exact .ok h₁
    | true =>
      refine ((hbody h₁).mono hrounds).bind fun result s₂ m₂ h₂ => ?_
      cases result with
      | some v => exact .ok h₂
      | none =>
        obtain ⟨m₃, hstep, hfollows⟩ := hafter h₂
        refine .succ hstep ?_
        refine (hfollows.mono (Nat.le_of_succ_le hrounds)).bind fun _ s₃ m₄ h₃ => ?_
        exact ih (Nat.le_of_succ_le hrounds) h₃

/-! ### Simple instructions -/

theorem Shows.follows_print (h : E.Shows site names place (v :: temps) s m)
    (hread : Instruction.read site.function.chunk.code place = .instruction .print) :
    Follows E.host E.Fits fuel m (Tree.print v.text s) fun _ s' m' =>
      E.Shows site names (place + 1) temps s' m' := by
  obtain ⟨m₁, hstep, h₁⟩ := h.fetch hread
  obtain ⟨sink, hwrite, hfits⟩ := h₁.fits.print v.text
  have h₂ := h₁.pop
  have h₃ : E.Shows site names (place + 1) temps { s with output := s.output ++ (v.text ++ "\n") }
      { m₁ with stack := m₁.stack.pop, sink } :=
    ⟨⟨hfits.globals, hfits.known, hfits.sink, hfits.limits⟩, h₂.frames, h₂.stack, h₂.names, h₂.values⟩
  refine .next (hstep.trans ?_) (.ok h₃)
  rw [Machine.perform, h₁.peek]
  dsimp only
  rw [Tree.Value.text_compiled, hwrite]

/-- A computed value becomes a global. -/
theorem Shows.follows_define (h : E.Shows site names place (v :: temps) s m) {name : String} {index : UInt8}
    (hconstant : site.function.chunk.constant? index = some (.string name))
    (hread : Instruction.read site.function.chunk.code place = .instruction (.defineGlobal index)) :
    Follows E.host E.Fits fuel m (Tree.declare true name v s) fun _ s' m' =>
      E.Shows site names (place + 2) temps s' m' := by
  obtain ⟨m₁, hstep, h₁⟩ := h.fetch hread
  have hfits := h₁.fits.define name (h₁.temp List.mem_cons_self)
  have h₂ := h₁.pop
  have h₃ : E.Shows site names (place + 2) temps { s with globals := Tree.putGlobal name v s.globals }
      { m₁ with stack := m₁.stack.pop, globals := m₁.globals.define name (v.compiled E.library) } :=
    ⟨⟨hfits.globals, hfits.known, hfits.sink, hfits.limits⟩, h₂.frames, h₂.stack, h₂.names, h₂.values⟩
  refine .next (hstep.trans ?_) (.ok h₃)
  rw [Machine.perform, perform_name _ hconstant, h₁.peek]

/-- A computed value becomes a variable. -/
theorem Shows.follows_declare (fuel : Nat) {scope : Scope} (h : E.Shows site scope.names place [v] s m)
    {name : String} (hdeclares : scope.Declares site.function.chunk place name) :
    Follows E.host E.Fits fuel m (Tree.declare (scope.depth == 0) name v s) fun _ s' m' =>
      E.Shows site (scope.declare name).names (place + if scope.depth == 0 then 2 else 0) [] s' m' := by
  rw [Scope.names_declare]
  by_cases hdepth : scope.depth = 0
  · obtain ⟨index, hconstant, hread⟩ := hdeclares hdepth
    rw [beq_iff_eq.mpr hdepth, if_pos hdepth]
    exact h.follows_define hconstant hread
  · rw [beq_false_of_ne hdepth, if_neg hdepth]
    exact .ok (h.declare name)

end Stage

end Lox
