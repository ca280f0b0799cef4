import Mathlib.Data.List.TakeDrop
import Lox.Proofs.Compilation.Writing

/-! # Declaring and resolving names

How the point of a compilation changes where scopes are opened and closed and names are declared. Between two
statements the locals in scope are nested: every declaration is complete, and inner scopes come first. Then
the locals that the compiler compares a new one with are those of the same scope, and those that it drops are
those of the closed one. -/

namespace Lox

/-! ### Scopes -/

/-- Locals of complete declarations, from inner scopes to outer ones, none of them deeper than `depth`. -/
def Local.Nested : (depth : Nat) → List Local → Prop
  | _, [] => True
  | depth, loc :: locals => ∃ d ≤ depth, loc.depth = some d ∧ Nested d locals

namespace Local

theorem Nested.mono {d e : Nat} {locals : List Local} (h : Nested d locals) (hle : d ≤ e) :
    Nested e locals := by
  cases locals with
  | nil => trivial
  | cons loc locals =>
    obtain ⟨d', hd', hdepth, hrest⟩ := h
    exact ⟨d', Nat.le_trans hd' hle, hdepth, hrest⟩

theorem Nested.depth_le {depth : Nat} {locals : List Local} (h : Nested depth locals) {loc : Local}
    (hmem : loc ∈ locals) :
    ∃ d ≤ depth, loc.depth = some d := by
  induction locals generalizing depth with
  | nil => cases hmem
  | cons first locals ih =>
    obtain ⟨d, hd, hdepth, hrest⟩ := h
    cases hmem with
    | head => exact ⟨d, hd, hdepth⟩
    | tail _ hmem =>
      obtain ⟨e, he, hloc⟩ := ih hrest hmem
      exact ⟨e, Nat.le_trans he hd, hloc⟩

theorem isWithin_iff {depth d : Nat} {loc : Local} (h : loc.depth = some d) : loc.isWithin depth = true ↔
    depth ≤ d := by
  simp [isWithin, h]

/-- The locals that a new one is compared with are those of its own scope. -/
theorem Nested.mem_takeWhile {depth : Nat} {locals : List Local} (h : Nested depth locals) (loc : Local) :
    loc ∈ locals.takeWhile (isWithin depth) ↔ loc ∈ locals ∧ loc.depth = some depth := by
  induction locals with
  | nil => simp
  | cons first locals ih =>
    obtain ⟨d, hd, hdepth, hrest⟩ := h
    rw [List.takeWhile_cons]
    split <;> rename_i hwithin
    · have heq : d = depth := Nat.le_antisymm hd ((isWithin_iff hdepth).mp hwithin)
      rw [List.mem_cons, List.mem_cons, ih (heq ▸ hrest)]
      constructor
      · rintro (rfl | ⟨hmem, hloc⟩)
        · exact ⟨Or.inl rfl, heq ▸ hdepth⟩
        · exact ⟨Or.inr hmem, hloc⟩
      · rintro ⟨rfl | hmem, hloc⟩
        · exact Or.inl rfl
        · exact Or.inr ⟨hmem, hloc⟩
    · -- The first local lies outside the scope, and so do all after it.
      have hlt : d < depth := Nat.lt_of_not_le fun hle => hwithin ((isWithin_iff hdepth).mpr hle)
      refine ⟨fun hmem => absurd hmem List.not_mem_nil, fun ⟨hmem, hloc⟩ => ?_⟩
      have hall : Nested d (first :: locals) := ⟨d, Nat.le_refl d, hdepth, hrest⟩
      obtain ⟨e, he, hloc'⟩ := hall.depth_le hmem
      rw [hloc] at hloc'
      cases hloc'
      omega

/-- Closing a scope drops exactly the locals that were declared in it. -/
theorem Nested.span_append {depth : Nat} {locals : List Local} (h : Nested depth locals) (added : List Local)
    (hadded : ∀ loc ∈ added, loc.depth = some (depth + 1)) :
    (added ++ locals).span (isWithin (depth + 1)) = (added, locals) := by
  have hin : ∀ loc ∈ added, loc.isWithin (depth + 1) = true := fun loc hloc =>
    (isWithin_iff (hadded loc hloc)).mpr (Nat.le_refl _)
  have hout : locals.takeWhile (isWithin (depth + 1)) = [] ∧ locals.dropWhile (isWithin (depth + 1)) =
      locals := by
    cases locals with
    | nil => exact ⟨rfl, rfl⟩
    | cons loc locals =>
      obtain ⟨d, hd, hdepth, -⟩ := h
      have hnot : ¬loc.isWithin (depth + 1) = true := fun hw => absurd ((isWithin_iff hdepth).mp hw) (by omega)
      rw [List.takeWhile_cons_of_neg hnot, List.dropWhile_cons_of_neg hnot]
      exact ⟨rfl, rfl⟩
  rw [List.span_eq_takeWhile_dropWhile, List.takeWhile_append_of_pos hin, List.dropWhile_append_of_pos hin,
    hout.1, hout.2, List.append_nil]

end Local

namespace Scope

/-- All declarations in scope are complete, inner scopes come first, and the locals are not too many. -/
structure Nested (scope : Scope) : Prop where
  order : Local.Nested scope.depth scope.locals
  room : scope.locals.length ≤ Compiler.maxLocals

theorem Nested.inner {scope : Scope} (h : scope.Nested) : scope.inner.Nested :=
  ⟨h.order.mono (Nat.le_succ _), h.room⟩

theorem Nested.after {scope : Scope} (h : scope.Nested) {name : Option String}
    (hname : ∀ n ∈ name, scope.Admits n) :
    (scope.after name).Nested := by
  cases name with
  | none => exact h
  | some name =>
    unfold Scope.after Scope.declare
    dsimp only
    split <;> rename_i hdepth
    · exact h
    · exact ⟨⟨scope.depth, Nat.le_refl _, rfl, h.order⟩, (hname name rfl hdepth).2⟩

end Scope

namespace Compiler

variable {c : Compiler} {p : Point}

theorem At.emitPops (h : c.At p) (height : Nat) (dropped : List Local) :
    (dropped.foldl (fun c _ => c.emit .pop) c).At (p.add (.pops p.line height dropped.length)) := by
  induction dropped generalizing c p with
  | nil =>
    rw [List.foldl_nil, List.length_nil, Fragment.pops, Point.add, Body.add_empty]
    exact h
  | cons loc dropped ih =>
    have hrest := ih (h.emit .pop (height + dropped.length + 1))
    rw [Point.add, Point.body_add, Body.add_add] at hrest
    exact hrest

theorem At.openScope (h : c.At p) : c.openScope.At { p with body := p.body.setScope p.body.scope.inner } := by
  rw [Compiler.openScope, h.body]
  exact h.setBody h.room

theorem At.closeScope {scope : Scope} (h : c.At p) (hnested : scope.Nested) (added : List Local)
    (hadded : ∀ loc ∈ added, loc.depth = some (scope.depth + 1))
    (hscope : p.body.scope = ⟨added ++ scope.locals, scope.depth + 1⟩) :
    c.closeScope.At
      { p with body := (p.body.setScope scope).add (.pops p.line scope.height added.length) } := by
  obtain ⟨hlocals, hdepth⟩ := Scope.mk.inj hscope
  have hset : { c with body := p.body.setScope scope }.At { p with body := p.body.setScope scope } :=
    h.setBody h.room
  have hpops := hset.emitPops scope.height added
  unfold Compiler.closeScope
  rw [h.body, hlocals, hdepth, Nat.add_sub_cancel]
  dsimp only
  rw [hnested.order.span_append added hadded]
  exact hpops

/-! ### Resolving -/

theorem At.resolve (h : c.At p) (name : Token) :
    (c.resolve name).1 = (Local.resolve? name.lexeme p.body.locals).map (fun found => operandByte found.1) ∧
      Outcome (c.resolve name).2 fun q => Local.Usable p.body.locals name.lexeme ∧ q = p := by
  unfold Compiler.resolve Local.Usable
  rw [h.body]
  cases hfound : Local.resolve? name.lexeme p.body.locals with
  | none => exact ⟨rfl, outcome_guard (fun _ => h) fun hnot => absurd (fun _ _ heq => by cases heq) hnot⟩
  | some found =>
    obtain ⟨slot, loc⟩ := found
    refine ⟨rfl, outcome_guard (fun husable => ?_) fun hnot => ?_⟩
    · have hdepth : loc.depth ≠ none := husable slot loc rfl
      dsimp only
      rw [if_neg (by simpa using hdepth)]
      exact h
    · have hdepth : loc.depth = none := Classical.byContradiction fun hne => hnot fun _ _ heq => by
        cases heq
        exact hne
      dsimp only
      rw [if_pos (by simpa using hdepth)]
      exact h.report _ _

/-! ### The last accepted token -/

@[simp] theorem previous_reportAt (c : Compiler) (token : Token) (cause : Diagnostic.Cause) :
    (c.reportAt token cause).previous = c.previous := by
  unfold Compiler.reportAt
  split <;> rfl

@[simp] theorem previous_shift (c : Compiler) (tokens : List Token) :
    (c.shift tokens).previous = c.previous := by
  induction tokens generalizing c with
  | nil => rfl
  | cons token tokens ih =>
    unfold Compiler.shift
    split
    · rw [ih, previous_reportAt]
    · rfl

@[simp] theorem previous_accept (c : Compiler) : c.accept.previous = c.current := previous_shift _ _

@[simp] theorem previous_addConstant (c : Compiler) (constant : Constant) :
    (c.addConstant constant).2.previous = c.previous := by
  unfold Compiler.addConstant
  split
  · rfl
  · exact previous_reportAt ..

@[simp] theorem previous_addLocal (c : Compiler) (name : Token) : (c.addLocal name).previous = c.previous := by
  unfold Compiler.addLocal
  split
  · exact previous_reportAt ..
  · rfl

@[simp] theorem previous_declare (c : Compiler) : c.declare.previous = c.previous := by
  unfold Compiler.declare
  split
  · rfl
  · dsimp only
    split
    · rw [previous_addLocal]
      exact previous_reportAt ..
    · exact previous_addLocal ..

@[simp] theorem previous_completeLocal (c : Compiler) : c.completeLocal.previous = c.previous := by
  unfold Compiler.completeLocal
  split
  · rfl
  · split <;> rfl

/-! ### Declaring -/

end Compiler

/-- Brings a local into scope, not yet usable. Outside all scopes nothing is done. -/
def Body.declare (b : Body) (name : String) : Body :=
  if b.depth = 0 then b else { b with locals := ⟨name, none⟩ :: b.locals }

/-- Brings a local into scope, or adds the name of a global to the constants. -/
def Body.begin (b : Body) (name : String) : Body :=
  (b.declare name).add (if b.depth = 0 then .pool (.string name) else {})

@[simp] theorem Body.depth_declare (b : Body) (name : String) : (b.declare name).depth = b.depth := by
  unfold declare
  split <;> rfl

@[simp] theorem Body.count_declare (b : Body) (name : String) : (b.declare name).count = b.count := by
  unfold declare
  split <;> rfl

theorem Body.add_declare (b : Body) (name : String) (f : Fragment) :
    (b.declare name).add f = (b.add f).declare name := by
  unfold declare
  rw [depth_add]
  split <;> rfl

namespace Compiler

variable {c : Compiler} {p : Point}

/-- Accepting and declaring a name. -/
def Declares (p q : Point) : Prop :=
  ∃ token rest, p.tokens = token :: rest ∧ token.kind = .identifier ∧ Readable rest ∧
    p.body.scope.Admits token.lexeme ∧ (p.body.depth = 0 → p.body.count < Chunk.maxConstants) ∧
    q = ⟨rest, token.line, p.body.begin token.lexeme⟩

/-- Declaring the name that was just accepted. -/
theorem At.declare (h : c.At p) (hnested : p.body.scope.Nested) :
    Outcome c.declare fun q => p.body.scope.Admits c.previous.lexeme ∧
      q = { p with body := p.body.declare c.previous.lexeme } := by
  unfold Compiler.declare Body.declare
  rw [h.body]
  by_cases hdepth : p.body.depth = 0
  · rw [if_pos hdepth, if_pos hdepth]
    exact outcome_guard (fun _ => h) fun hnot => absurd (fun hne => absurd hdepth hne) hnot
  · rw [if_neg hdepth, if_neg hdepth]
    dsimp only
    have hpeers : (p.body.locals.takeWhile (Local.isWithin p.body.depth)).any (·.name = c.previous.lexeme) =
        true ↔ ∃ loc ∈ p.body.locals, loc.depth = some p.body.depth ∧ loc.name = c.previous.lexeme := by
      rw [List.any_eq_true]
      constructor
      · rintro ⟨loc, hmem, hname⟩
        obtain ⟨hin, hloc⟩ := (hnested.order.mem_takeWhile loc).mp hmem
        exact ⟨loc, hin, hloc, of_decide_eq_true hname⟩
      · rintro ⟨loc, hin, hloc, hname⟩
        exact ⟨loc, (hnested.order.mem_takeWhile loc).mpr ⟨hin, hloc⟩, decide_eq_true hname⟩
    by_cases hpeer : ∃ loc ∈ p.body.locals, loc.depth = some p.body.depth ∧ loc.name = c.previous.lexeme
    · rw [if_pos (hpeers.mpr hpeer)]
      obtain ⟨loc, hin, hloc, hname⟩ := hpeer
      have hfailed : (c.report (.duplicate c.previous.lexeme)).Failed := h.report _ _
      exact (failed_stable.addLocal hfailed _).outcome fun q hq => (hq.1 hdepth).1 loc hin hloc hname
    · rw [if_neg fun hany => hpeer (hpeers.mp hany)]
      unfold Compiler.addLocal
      rw [h.body]
      by_cases hfull : p.body.locals.length = maxLocals
      · rw [if_pos hfull]
        exact (h.report _ _).outcome fun q hq =>
          absurd (hq.1 hdepth).2 (Nat.not_lt.mpr (Nat.le_of_eq hfull.symm))
      · rw [if_neg hfull]
        refine outcome_guard (fun _ => h.setBody h.room) fun hnot =>
          absurd (fun _ => ⟨fun loc hin hloc hname => ?_, ?_⟩) hnot
        · exact hpeer ⟨loc, hin, hloc, hname⟩
        · exact Nat.lt_of_le_of_ne hnested.room hfull

/-- The constant that names a global. -/
theorem At.nameGlobal (h : c.At p) :
    Outcome (if 0 < c.body.depth then (0, c) else c.nameConstant c.previous).2 fun q =>
      (p.body.depth = 0 → p.body.count < Chunk.maxConstants) ∧
      q = p.add (if p.body.depth = 0 then .pool (.string c.previous.lexeme) else {}) := by
  rw [h.body]
  by_cases hdepth : p.body.depth = 0
  · rw [if_neg (by omega), if_pos hdepth]
    refine outcome_guard (fun hroom => ?_) fun hroom => ?_
    · exact (h.addConstant (.string c.previous.lexeme) (hroom hdepth)).2
    · exact h.addConstant_failed _ fun hlt => hroom fun _ => hlt
  · rw [if_pos (by omega), if_neg hdepth, Point.add, Body.add_empty]
    exact outcome_guard (fun _ => h) fun hnot => absurd (fun h0 => absurd h0 hdepth) hnot

/-- A name that is accepted and declared is the last accepted token after that. -/
theorem At.previous_declared {q : Point} (h : c.At p) (htakes : Takes .identifier p q)
    (what : Diagnostic.Expectation) :
    (c.expect .identifier what).declare.previous = c.current := by
  obtain ⟨token, rest, htokens, hkind, -, -⟩ := htakes
  rw [previous_declare, Compiler.expect, if_pos ((h.sees htokens _).mpr hkind), previous_accept]

theorem At.declareName (h : c.At p) (hnested : p.body.scope.Nested) (what : Diagnostic.Expectation) :
    Outcome (c.declareName what).2 (Declares p) := by
  have hfailed : ∀ d : Compiler, d.Failed →
      (if 0 < d.body.depth then (0, d) else d.nameConstant d.previous).2.Failed := by
    intro d hf
    split
    · exact hf
    · exact failed_stable.nameConstant hf _
  have hdeclare : Outcome (c.expect .identifier what).declare fun q => ∃ r, Takes .identifier p r ∧
      r.body.scope.Admits c.current.lexeme ∧ q = { r with body := r.body.declare c.current.lexeme } := by
    refine (h.expect .identifier (by decide) what).bind failed_stable.declare fun r hr hat => ?_
    have hprevious := h.previous_declared hr what
    rw [previous_declare] at hprevious
    obtain ⟨token, rest, htokens, hkind, hread, rfl⟩ := hr
    rw [← hprevious]
    exact hat.declare hnested
  have hname : Outcome (c.declareName what).2 fun q => ∃ s, (∃ r, Takes .identifier p r ∧
      r.body.scope.Admits c.current.lexeme ∧ s = { r with body := r.body.declare c.current.lexeme }) ∧
      (s.body.depth = 0 → s.body.count < Chunk.maxConstants) ∧
      q = s.add (if s.body.depth = 0 then .pool (.string c.current.lexeme) else {}) := by
    refine hdeclare.bind (hfailed _) ?_
    rintro s ⟨r, htakes, hadmits, rfl⟩ hat
    have hglobal := hat.nameGlobal
    rw [h.previous_declared htakes what] at hglobal
    have hunfold : c.declareName what = if 0 < (c.expect .identifier what).declare.body.depth
        then (0, (c.expect .identifier what).declare)
        else (c.expect .identifier what).declare.nameConstant (c.expect .identifier what).declare.previous :=
          rfl
    rw [hunfold, h.previous_declared htakes what]
    exact hglobal
  refine hname.iff fun q => ?_
  obtain ⟨current, others, hcurrent, rfl, -⟩ := h.exists_tokens
  constructor
  · rintro ⟨_, ⟨_, ⟨token, rest, htokens, hkind, hread, rfl⟩, hadmits, rfl⟩, hroom, rfl⟩
    cases hcurrent.symm.trans htokens
    rw [Body.depth_declare, Body.count_declare] at hroom
    refine ⟨_, _, htokens, hkind, hread, hadmits, hroom, ?_⟩
    rw [Body.depth_declare]
    rfl
  · rintro ⟨token, rest, htokens, hkind, hread, hadmits, hroom, rfl⟩
    cases hcurrent.symm.trans htokens
    refine ⟨_, ⟨_, ⟨_, _, htokens, hkind, hread, rfl⟩, hadmits, rfl⟩, ?_, ?_⟩
    · rw [Body.depth_declare, Body.count_declare]
      exact hroom
    · rw [Body.depth_declare]
      rfl

/-- The index with which the declaration of a global is completed. -/
theorem At.declareName_index {q : Point} (h : c.At p) (hq : Declares p q) (hdepth : p.body.depth = 0)
    (what : Diagnostic.Expectation) : (c.declareName what).1 = operandByte p.body.count := by
  obtain ⟨token, rest, htokens, hkind, hread, -, hroom, -⟩ := hq
  have htakes : Takes .identifier p ⟨rest, token.line, p.body⟩ := ⟨token, rest, htokens, hkind, hread, rfl⟩
  have hat := (h.expect .identifier (by decide) what).1 _ htakes
  have hsame : (c.expect .identifier what).declare = c.expect .identifier what := by
    rw [Compiler.declare, hat.body, if_pos hdepth]
  unfold Compiler.declareName
  rw [hsame]
  dsimp only
  rw [hat.body, if_neg (Nat.not_lt.mpr (Nat.le_of_eq hdepth))]
  exact (hat.addConstant _ (hroom hdepth)).1

/-- The name of a function is the last accepted token when its body begins. -/
theorem At.previous_declareName {q : Point} (h : c.At p) (hq : Declares p q) (what : Diagnostic.Expectation) :
    (c.declareName what).2.previous = c.current := by
  obtain ⟨token, rest, htokens, hkind, hread, -, -, -⟩ := hq
  have hprevious := h.previous_declared ⟨token, rest, htokens, hkind, hread, rfl⟩ what
  unfold Compiler.declareName
  dsimp only
  split
  · exact hprevious
  · exact (previous_addConstant _ _).trans hprevious

/-! ### Completing a declaration -/

theorem At.completeLocal {b : Body} {name : String} (h : c.At p) (hbody : p.body = b.declare name) :
    c.completeLocal.At { p with body := b.setScope (b.scope.declare name) } := by
  unfold Compiler.completeLocal
  rw [h.body, hbody, Body.depth_declare]
  by_cases hdepth : b.depth = 0
  · have hscope : b.scope.declare name = b.scope := if_pos hdepth
    have hdeclared : b.declare name = b := if_pos hdepth
    rw [if_pos hdepth, hscope, Body.setScope_self, ← hdeclared, ← hbody]
    exact h
  · have hscope : b.scope.declare name = ⟨⟨name, some b.depth⟩ :: b.locals, b.depth⟩ := if_neg hdepth
    have hdeclared : b.declare name = { b with locals := ⟨name, none⟩ :: b.locals } := if_neg hdepth
    have hroom : b.count ≤ Chunk.maxConstants := by
      have hroom := h.room
      rwa [hbody, Body.count_declare] at hroom
    rw [if_neg hdepth, hscope, hdeclared]
    exact h.setBody hroom

end Compiler

end Lox
