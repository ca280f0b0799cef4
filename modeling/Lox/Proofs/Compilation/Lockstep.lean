import Mathlib.Data.List.Forall2
import Mathlib.Data.List.TakeDrop
import Lox.Compile

/-! # Two compilations in lockstep

The compiler looks at the kinds of tokens and at which of their texts are equal; lines and spellings it only
hands on. So the compilations of two texts that differ in nothing but lines and spellings decide everything
alike, also while they panic and recover: the same code is written, and the same diagnostics are reported but
for lines and spellings. -/

namespace Lox

/-- A local with its name spelled differently. -/
def Local.respell (word : String → String) (loc : Local) : Local := { loc with name := word loc.name }

/-- If different names stay different, they are resolved as before. -/
theorem Local.resolve?_respell {word : String → String} (hword : ∀ {x y : String}, word x = word y → x = y)
    (name : String) (locals : List Local) : Local.resolve? (word name) (locals.map (Local.respell word)) =
      (Local.resolve? name locals).map fun found => (found.1, found.2.respell word) := by
  induction locals with
  | nil => rfl
  | cons loc locals ih =>
    have hname : (loc.respell word).name = word name ↔ loc.name = name := ⟨hword, congrArg word⟩
    rw [List.map_cons, Local.resolve?, Local.resolve?, ih, List.length_map, if_congr hname rfl rfl]
    split <;> rfl

/-- How two texts may differ, and their compilations with them: in lines, in the spelling of words
    and in constants. -/
structure Variation where
  line : UInt32 → UInt32 → Prop
  word : String → String
  constant : Constant → Constant → Prop

namespace Variation

variable (v : Variation)

/-! ### States that differ by a variation -/

/-- Tokens that differ by a variation. Only identifiers are spelled differently. -/
structure OnToken (t u : Token) : Prop where
  kind : u.kind = t.kind
  lexeme : u.lexeme = v.word t.lexeme
  line : v.line t.line u.line
  fixed : t.kind ≠ .identifier → v.word t.lexeme = t.lexeme

/-- Functions that differ by a variation: their code is the same. -/
structure OnFunction (f g : Function) : Prop where
  arity : g.arity = f.arity
  code : g.chunk.code = f.chunk.code
  lines : List.Forall₂ v.line f.chunk.lines.toList g.chunk.lines.toList
  constants : List.Forall₂ v.constant f.chunk.constants g.chunk.constants
  name : g.name = f.name.map v.word

/-- A place with its token spelled differently. -/
def place : Diagnostic.Place → Diagnostic.Place
  | .at lexeme => .at (v.word lexeme)
  | .unknown => .unknown
  | .atEnd => .atEnd

/-- A cause with its name spelled differently. -/
def cause : Diagnostic.Cause → Diagnostic.Cause
  | .ownInitializer name => .ownInitializer (v.word name)
  | .duplicate name => .duplicate (v.word name)
  | cause => cause

/-- Diagnostics that differ by a variation. -/
structure OnDiagnostic (a b : Diagnostic) : Prop where
  line : v.line a.line b.line
  place : b.place = v.place a.place
  cause : b.cause = v.cause a.cause

/-- Functions in the making that differ by a variation. -/
structure OnBody (a b : Body) : Prop where
  function : v.OnFunction a.function b.function
  isScript : b.isScript = a.isScript
  locals : b.locals = a.locals.map (Local.respell v.word)
  depth : b.depth = a.depth

/-- Compilations that differ by a variation. -/
structure OnCompiler (c d : Compiler) : Prop where
  previous : v.OnToken c.previous d.previous
  current : v.OnToken c.current d.current
  rest : List.Forall₂ v.OnToken c.rest d.rest
  panicking : d.panicking = c.panicking
  diagnostics : List.Forall₂ v.OnDiagnostic c.diagnostics.toList d.diagnostics.toList
  body : v.OnBody c.body d.body

/-- A variation for which lockstep holds: different words stay different, and it holds of the constants that
    the compiler makes. -/
structure Lawful : Prop where
  line_unread : v.line Token.unread.line Token.unread.line
  injective : ∀ {x y : String}, v.word x = v.word y → x = y
  empty : v.word "" = ""
  number : ∀ bits, v.constant (.number bits) (.number bits)
  string : ∀ text, v.constant (.string text) (.string text)
  name : ∀ name, v.constant (.string name) (.string (v.word name))
  function : ∀ {f g : Function}, v.OnFunction f g → v.constant (.function f) (.function g)

variable {v}

theorem forall₂_push {α β : Type} {R : α → β → Prop} {xs : Array α} {ys : Array β} {x : α} {y : β}
    (h : List.Forall₂ R xs.toList ys.toList) (hxy : R x y) :
    List.Forall₂ R (xs.push x).toList (ys.push y).toList := by
  rw [Array.toList_push, Array.toList_push]
  exact List.rel_append h (.cons hxy .nil)

theorem OnBody.start (L : v.Lawful) (isScript : Bool) (name : Option String) :
    v.OnBody (.start isScript name) (.start isScript (name.map v.word)) where
  function := ⟨rfl, rfl, .nil, .nil, rfl⟩
  isScript := rfl
  locals := by
    rw [Body.start, Body.start, List.map_singleton, Local.respell, L.empty]
  depth := rfl

namespace OnCompiler

variable {c d : Compiler} {t u : Token}

/-! ### Tokens -/

theorem reportAt (h : v.OnCompiler c d) (ht : v.OnToken t u) (cause : Diagnostic.Cause) :
    v.OnCompiler (c.reportAt t cause) (d.reportAt u (v.cause cause)) := by
  unfold Compiler.reportAt
  rw [h.panicking, ht.kind]
  split
  · exact h
  · refine { h with panicking := rfl, diagnostics := forall₂_push h.diagnostics ⟨ht.line, ?_, rfl⟩ }
    dsimp only
    split
    · rfl
    · rfl
    · rw [place, ht.lexeme]

theorem report (h : v.OnCompiler c d) (cause : Diagnostic.Cause) :
    v.OnCompiler (c.report cause) (d.report (v.cause cause)) :=
  h.reportAt h.previous cause

theorem reportHere (h : v.OnCompiler c d) (cause : Diagnostic.Cause) :
    v.OnCompiler (c.reportHere cause) (d.reportHere (v.cause cause)) :=
  h.reportAt h.current cause

theorem shift (h : v.OnCompiler c d) {ts us : List Token} (hs : List.Forall₂ v.OnToken ts us) :
    v.OnCompiler (c.shift ts) (d.shift us) := by
  induction hs generalizing c d with
  | nil => exact { h with rest := .nil }
  | @cons t u ts us ht hs ih =>
    rw [Compiler.shift, Compiler.shift, ht.kind]
    split <;> rename_i herror
    · have hcomplaint : u.lexeme = t.lexeme := ht.lexeme.trans (ht.fixed (by rw [herror]; decide))
      rw [hcomplaint]
      exact ih (h.reportAt ht (.lexical t.lexeme))
    · exact { h with current := ht, rest := hs }

theorem accept (h : v.OnCompiler c d) : v.OnCompiler c.accept d.accept :=
  shift (c := { c with previous := c.current }) (d := { d with previous := d.current })
    { h with previous := h.current } h.rest

theorem sees (h : v.OnCompiler c d) (kind : Token.Kind) : d.sees kind = c.sees kind := by
  rw [Compiler.sees, Compiler.sees, h.current.kind]

theorem expect (h : v.OnCompiler c d) (kind : Token.Kind) (what : Diagnostic.Expectation) :
    v.OnCompiler (c.expect kind what) (d.expect kind what) := by
  unfold Compiler.expect
  rw [h.sees]
  split
  · exact h.accept
  · exact h.reportHere (.expected what)

theorem skipStatement (h : v.OnCompiler c d) (fuel : Nat) :
    v.OnCompiler (c.skipStatement fuel) (d.skipStatement fuel) := by
  induction fuel generalizing c d with
  | zero => exact h
  | succ fuel ih =>
    unfold Compiler.skipStatement
    rw [h.sees, h.previous.kind, h.current.kind]
    split
    · exact h
    · exact ih h.accept

theorem recover (h : v.OnCompiler c d) (fuel : Nat) : v.OnCompiler (c.recover fuel) (d.recover fuel) := by
  unfold Compiler.recover
  rw [h.panicking]
  split
  · have hcalm : v.OnCompiler { c with panicking := false } { d with panicking := false } :=
      { h with panicking := rfl }
    exact hcalm.skipStatement fuel
  · exact h

/-! ### Code -/

/-- Compilations go on with other functions in the making. -/
theorem withBody (h : v.OnCompiler c d) {a b : Body} (hbody : v.OnBody a b) :
    v.OnCompiler { c with body := a } { d with body := b } :=
  { h with body := hbody }

/-- Only the chunks in the making change. -/
theorem withChunk (h : v.OnCompiler c d) {a b : Chunk} (hcode : b.code = a.code)
    (hlines : List.Forall₂ v.line a.lines.toList b.lines.toList)
    (hconstants : List.Forall₂ v.constant a.constants b.constants) :
    v.OnCompiler { c with body.function.chunk := a } { d with body.function.chunk := b } :=
  h.withBody
    { h.body with function := ⟨h.body.function.arity, hcode, hlines, hconstants, h.body.function.name⟩ }

theorem codeSize (h : v.OnCompiler c d) : d.codeSize = c.codeSize := by
  rw [Compiler.codeSize, Compiler.codeSize, Chunk.size, Chunk.size, h.body.function.code]

theorem writeByte (h : v.OnCompiler c d) (byte : UInt8) :
    v.OnCompiler (c.writeByte byte) (d.writeByte byte) := by
  refine h.withChunk ?_ (forall₂_push h.body.function.lines h.previous.line) h.body.function.constants
  rw [Chunk.write, Chunk.write, h.body.function.code]

theorem emit (h : v.OnCompiler c d) (i : Instruction) : v.OnCompiler (c.emit i) (d.emit i) := by
  unfold Compiler.emit
  generalize i.bytes = bytes
  induction bytes generalizing c d with
  | nil => exact h
  | cons byte bytes ih => exact ih (h.writeByte byte)

theorem emitAll (h : v.OnCompiler c d) (is : List Instruction) :
    v.OnCompiler (is.foldl Compiler.emit c) (is.foldl Compiler.emit d) := by
  induction is generalizing c d with
  | nil => exact h
  | cons i is ih => exact ih (h.emit i)

theorem emitBareReturn (h : v.OnCompiler c d) : v.OnCompiler c.emitBareReturn d.emitBareReturn :=
  (h.emit .nil).emit .ret

theorem addConstant (h : v.OnCompiler c d) {a b : Constant} (hab : v.constant a b) :
    (d.addConstant b).1 = (c.addConstant a).1 ∧ v.OnCompiler (c.addConstant a).2 (d.addConstant b).2 := by
  have hlength := h.body.function.constants.length_eq
  unfold Compiler.addConstant Chunk.addConstant?
  dsimp only
  rw [← hlength]
  by_cases hroom : c.body.function.chunk.constants.length < Chunk.maxConstants
  · rw [if_pos hroom, if_pos hroom]
    exact ⟨rfl, h.withChunk h.body.function.code h.body.function.lines
      (List.rel_append h.body.function.constants (.cons hab .nil))⟩
  · rw [if_neg hroom, if_neg hroom]
    exact ⟨rfl, h.report .tooManyConstants⟩

theorem emitConstant (h : v.OnCompiler c d) {a b : Constant} (hab : v.constant a b) :
    v.OnCompiler (c.emitConstant a) (d.emitConstant b) := by
  obtain ⟨hindex, hnext⟩ := h.addConstant hab
  unfold Compiler.emitConstant
  dsimp only
  rw [hindex]
  exact hnext.emit _

theorem openJump (h : v.OnCompiler c d) (jump : UInt16 → Instruction) :
    (d.openJump jump).1 = (c.openJump jump).1 ∧ v.OnCompiler (c.openJump jump).2 (d.openJump jump).2 := by
  have hnext := h.emit (jump 0xffff)
  refine ⟨?_, hnext⟩
  unfold Compiler.openJump
  dsimp only
  rw [hnext.codeSize]

theorem closeJump (h : v.OnCompiler c d) (place : Nat) :
    v.OnCompiler (c.closeJump place) (d.closeJump place) := by
  unfold Compiler.closeJump
  dsimp only
  rw [h.codeSize]
  split
  · refine h.withChunk ?_ h.body.function.lines h.body.function.constants
    rw [Chunk.patch, Chunk.patch, h.body.function.code]
  · exact h.report .jumpTooFar

theorem emitLoop (h : v.OnCompiler c d) (start : Nat) : v.OnCompiler (c.emitLoop start) (d.emitLoop start) := by
  have hloop := h.writeByte Opcode.loop.byte
  unfold Compiler.emitLoop
  dsimp only
  rw [h.codeSize]
  refine writeByte (writeByte ?_ _) _
  split
  · exact hloop.report .loopTooLarge
  · exact hloop

theorem finish (h : v.OnCompiler c d) : v.OnFunction c.finish.1 d.finish.1 ∧
    v.OnCompiler c.finish.2 d.finish.2 := by
  have hreturned := h.emitBareReturn
  refine ⟨hreturned.body.function, ?_⟩
  -- What was finished on the way is no part of the relation.
  unfold Compiler.finish
  dsimp only
  split <;> split <;> exact { hreturned with }

/-! ### Scopes and variables -/

theorem openScope (h : v.OnCompiler c d) : v.OnCompiler c.openScope d.openScope :=
  h.withBody { h.body with depth := congrArg (· + 1) h.body.depth }

theorem closeScope (h : v.OnCompiler c d) : v.OnCompiler c.closeScope d.closeScope := by
  unfold Compiler.closeScope
  dsimp only
  rw [List.span_eq_takeWhile_dropWhile, List.span_eq_takeWhile_dropWhile, h.body.locals, h.body.depth,
    List.takeWhile_map, List.dropWhile_map]
  have hclosed : v.OnCompiler
      { c with
        body.depth := c.body.depth - 1
        body.locals := c.body.locals.dropWhile (Local.isWithin (c.body.depth - 1 + 1)) }
      { d with
        body.depth := c.body.depth - 1
        body.locals := (c.body.locals.dropWhile (Local.isWithin (c.body.depth - 1 + 1))).map
            (Local.respell v.word) } :=
    h.withBody { h.body with locals := rfl, depth := rfl }
  -- The locals that are dropped count only by their number.
  have hpops : ∀ (dropped : List Local) {c d : Compiler}, v.OnCompiler c d → v.OnCompiler
      (dropped.foldl (fun c _ => c.emit .pop) c) ((dropped.map (Local.respell v.word)).foldl
        (fun c _ => c.emit .pop) d) := by
    intro dropped
    induction dropped with
    | nil => exact id
    | cons _ _ ih => exact fun h => ih (h.emit .pop)
  exact hpops _ hclosed

theorem nameConstant (L : v.Lawful) (h : v.OnCompiler c d) (ht : v.OnToken t u) :
    (d.nameConstant u).1 = (c.nameConstant t).1 ∧ v.OnCompiler (c.nameConstant t).2 (d.nameConstant u).2 := by
  unfold Compiler.nameConstant
  rw [ht.lexeme]
  exact h.addConstant (L.name t.lexeme)

theorem resolve (L : v.Lawful) (h : v.OnCompiler c d) (ht : v.OnToken t u) :
    (d.resolve u).1 = (c.resolve t).1 ∧ v.OnCompiler (c.resolve t).2 (d.resolve u).2 := by
  unfold Compiler.resolve
  rw [ht.lexeme, h.body.locals, Local.resolve?_respell L.injective]
  cases Local.resolve? t.lexeme c.body.locals with
  | none => exact ⟨rfl, h⟩
  | some found =>
    refine ⟨rfl, ?_⟩
    have hdepth : (found.2.respell v.word).depth = found.2.depth := rfl
    dsimp only [Option.map_some]
    rw [hdepth]
    split
    · exact h.report (.ownInitializer t.lexeme)
    · exact h

theorem addLocal (h : v.OnCompiler c d) (ht : v.OnToken t u) : v.OnCompiler (c.addLocal t) (d.addLocal u) := by
  unfold Compiler.addLocal
  rw [h.body.locals, List.length_map]
  split
  · exact h.report .tooManyLocals
  · refine h.withBody { h.body with locals := ?_ }
    rw [List.map_cons, Local.respell, ht.lexeme]

theorem declare (L : v.Lawful) (h : v.OnCompiler c d) : v.OnCompiler c.declare d.declare := by
  unfold Compiler.declare
  rw [h.body.depth]
  split
  · exact h
  · have hpeers : (d.body.locals.takeWhile (Local.isWithin c.body.depth)).any (·.name = d.previous.lexeme) =
        (c.body.locals.takeWhile (Local.isWithin c.body.depth)).any (·.name = c.previous.lexeme) := by
      rw [h.body.locals, List.takeWhile_map, List.any_map, h.previous.lexeme]
      congr 1
      funext loc
      exact decide_eq_decide.mpr ⟨L.injective, congrArg v.word⟩
    dsimp only
    rw [hpeers]
    split
    · rw [h.previous.lexeme]
      exact (h.report (.duplicate c.previous.lexeme)).addLocal h.previous
    · exact h.addLocal h.previous

theorem declareName (L : v.Lawful) (h : v.OnCompiler c d) (what : Diagnostic.Expectation) :
    (d.declareName what).1 = (c.declareName what).1 ∧
      v.OnCompiler (c.declareName what).2 (d.declareName what).2 := by
  have hdeclared := (h.expect .identifier what).declare L
  unfold Compiler.declareName
  dsimp only
  rw [hdeclared.body.depth]
  split
  · exact ⟨rfl, hdeclared⟩
  · exact hdeclared.nameConstant L hdeclared.previous

theorem completeLocal (h : v.OnCompiler c d) : v.OnCompiler c.completeLocal d.completeLocal := by
  unfold Compiler.completeLocal
  rw [h.body.depth, h.body.locals]
  split
  · exact h
  · cases hlocals : c.body.locals with
    | nil => exact h
    | cons loc locals => exact h.withBody { h.body with locals := rfl, depth := h.body.depth }

theorem define (h : v.OnCompiler c d) (global : UInt8) : v.OnCompiler (c.define global) (d.define global) := by
  unfold Compiler.define
  rw [h.body.depth]
  split
  · exact h.completeLocal
  · exact h.emit _

/-! ### Expressions -/

section

variable (L : v.Lawful) {parse : Level → Compiler → Compiler}
  (hparse : ∀ level {c d}, v.OnCompiler c d → v.OnCompiler (parse level c) (parse level d))

include hparse

include L in
theorem mention (h : v.OnCompiler c d) (assignable : Bool) :
    v.OnCompiler (Compiler.mention parse assignable c) (Compiler.mention parse assignable d) := by
  -- The rest of a mention, once it is known where the variable is.
  have hrest : ∀ (read write : Instruction) {c d : Compiler}, v.OnCompiler c d → v.OnCompiler
      (if assignable && c.sees .equal then (parse .assignment c.accept).emit write else c.emit read)
      (if assignable && d.sees .equal then (parse .assignment d.accept).emit write else d.emit read) := by
    intro read write c d h
    rw [h.sees]
    split
    · exact (hparse .assignment h.accept).emit write
    · exact h.emit read
  obtain ⟨hslot, hresolved⟩ := h.resolve L h.previous
  unfold Compiler.mention
  dsimp only
  generalize c.resolve c.previous = x at hslot hresolved ⊢
  generalize d.resolve d.previous = y at hslot hresolved ⊢
  obtain ⟨slot, c'⟩ := x
  obtain ⟨slot', d'⟩ := y
  obtain rfl : slot' = slot := hslot
  cases slot' with
  | some slot => exact hrest _ _ hresolved
  | none =>
    obtain ⟨hindex, hnamed⟩ := hresolved.nameConstant L h.previous
    dsimp only
    rw [hindex]
    exact hrest _ _ hnamed

include L in
theorem operand (h : v.OnCompiler c d) (assignable : Bool) :
    v.OnCompiler (Compiler.operand parse assignable c) (Compiler.operand parse assignable d) := by
  have hlexeme : c.previous.kind ≠ .identifier → d.previous.lexeme = c.previous.lexeme :=
    fun hkind => h.previous.lexeme.trans (h.previous.fixed hkind)
  unfold Compiler.operand
  rw [h.previous.kind]
  split <;> rename_i hkind
  · exact (hparse .assignment h).expect _ _
  · exact (hparse .unary h).emit _
  · exact (hparse .unary h).emit _
  · exact h.mention L hparse assignable
  · rw [hlexeme (by rw [hkind]; decide)]
    exact h.emitConstant (L.string _)
  · rw [hlexeme (by rw [hkind]; decide)]
    exact h.emitConstant (L.number _)
  · exact h.emit _
  · exact h.emit _
  · exact h.emit _
  · exact h

theorem arguments (h : v.OnCompiler c d) (count : UInt8) (fuel : Nat) :
    (Compiler.arguments parse count d fuel).1 = (Compiler.arguments parse count c fuel).1 ∧
      v.OnCompiler (Compiler.arguments parse count c fuel).2 (Compiler.arguments parse count d fuel).2 := by
  induction fuel generalizing c d count with
  | zero => exact ⟨rfl, h⟩
  | succ fuel ih =>
    have hrest : ∀ (count : UInt8) {c d : Compiler}, v.OnCompiler c d →
        (if d.sees .comma then Compiler.arguments parse count d.accept fuel else (count, d)).1 =
            (if c.sees .comma then Compiler.arguments parse count c.accept fuel else (count, c)).1 ∧
          v.OnCompiler (if c.sees .comma then Compiler.arguments parse count c.accept fuel else (count, c)).2
            (if d.sees .comma then Compiler.arguments parse count d.accept fuel else (count, d)).2 := by
      intro count c d h
      rw [h.sees]
      split
      · exact ih h.accept count
      · exact ⟨rfl, h⟩
    have hparsed := hparse .assignment h
    unfold Compiler.arguments
    dsimp only
    by_cases hcount : count = 255
    · rw [if_pos hcount, if_pos hcount]
      exact hrest count (hparsed.report .tooManyArguments)
    · rw [if_neg hcount, if_neg hcount]
      exact hrest (count + 1) hparsed

theorem callOperator (h : v.OnCompiler c d) (fuel : Nat) :
    v.OnCompiler (Compiler.callOperator parse fuel c) (Compiler.callOperator parse fuel d) := by
  unfold Compiler.callOperator
  rw [h.sees]
  by_cases hclose : c.sees .rightParen = true
  · rw [if_pos hclose, if_pos hclose]
    exact (h.expect _ _).emit _
  · rw [if_neg hclose, if_neg hclose]
    obtain ⟨hcount, hnext⟩ := h.arguments hparse 0 fuel
    dsimp only
    rw [hcount]
    exact (hnext.expect _ _).emit _

theorem andOperator (h : v.OnCompiler c d) :
    v.OnCompiler (Compiler.andOperator parse c) (Compiler.andOperator parse d) := by
  obtain ⟨hend, hopen⟩ := h.openJump .jumpIfFalse
  unfold Compiler.andOperator
  dsimp only
  rw [hend]
  exact (hparse .and (hopen.emit .pop)).closeJump _

theorem orOperator (h : v.OnCompiler c d) :
    v.OnCompiler (Compiler.orOperator parse c) (Compiler.orOperator parse d) := by
  obtain ⟨hright, hopen⟩ := h.openJump .jumpIfFalse
  obtain ⟨hend, hopen'⟩ := hopen.openJump .jump
  unfold Compiler.orOperator
  dsimp only
  rw [hright, hend]
  exact (hparse .or ((hopen'.closeJump _).emit .pop)).closeJump _

theorem operator (h : v.OnCompiler c d) (fuel : Nat) :
    v.OnCompiler (Compiler.operator parse fuel c) (Compiler.operator parse fuel d) := by
  unfold Compiler.operator
  rw [h.previous.kind]
  split
  · exact h.callOperator hparse fuel
  · exact h.andOperator hparse
  · exact h.orOperator hparse
  · exact (hparse _ h).emitAll _

theorem operators (h : v.OnCompiler c d) (level : Level) (fuel : Nat) :
    v.OnCompiler (Compiler.operators parse level c fuel) (Compiler.operators parse level d fuel) := by
  induction fuel generalizing c d with
  | zero => exact h
  | succ fuel ih =>
    unfold Compiler.operators
    rw [h.current.kind]
    split
    · exact ih (h.accept.operator hparse fuel)
    · exact h

end

theorem expression (L : v.Lawful) (fuel : Nat) (level : Level) {c d : Compiler} (h : v.OnCompiler c d) :
    v.OnCompiler (Compiler.expression fuel level c) (Compiler.expression fuel level d) := by
  induction fuel generalizing c d level with
  | zero => exact h
  | succ fuel ih =>
    have haccepted := h.accept
    unfold Compiler.expression
    dsimp only
    rw [haccepted.previous.kind]
    split
    · have hread := (haccepted.operand L ih (level.rank ≤ Level.assignment.rank)).operators ih level fuel
      rw [hread.sees]
      split
      · exact hread.accept.report .invalidTarget
      · exact hread
    · exact haccepted.report (.expected .expression)

/-! ### Statements and declarations -/

section

variable (L : v.Lawful) {expr stmt decl : Compiler → Compiler}
  (hexpr : ∀ {c d}, v.OnCompiler c d → v.OnCompiler (expr c) (expr d))
  (hstmt : ∀ {c d}, v.OnCompiler c d → v.OnCompiler (stmt c) (stmt d))
  (hdecl : ∀ {c d}, v.OnCompiler c d → v.OnCompiler (decl c) (decl d))

include L hexpr in
theorem varDeclaration (h : v.OnCompiler c d) :
    v.OnCompiler (Compiler.varDeclaration expr c) (Compiler.varDeclaration expr d) := by
  obtain ⟨hglobal, hnamed⟩ := h.declareName L .variableName
  unfold Compiler.varDeclaration
  dsimp only
  rw [hglobal, hnamed.sees]
  split
  · exact ((hexpr hnamed.accept).expect _ _).define _
  · exact ((hnamed.emit .nil).expect _ _).define _

include hexpr in
theorem expressionStatement (h : v.OnCompiler c d) :
    v.OnCompiler (Compiler.expressionStatement expr c) (Compiler.expressionStatement expr d) :=
  ((hexpr h).expect _ _).emit _

include hexpr in
theorem returnStatement (h : v.OnCompiler c d) :
    v.OnCompiler (Compiler.returnStatement expr c) (Compiler.returnStatement expr d) := by
  have hrest : ∀ {c d : Compiler}, v.OnCompiler c d → v.OnCompiler
      (if c.sees .semicolon then c.accept.emitBareReturn else ((expr c).expect .semicolon .endReturn).emit .ret)
      (if d.sees .semicolon then d.accept.emitBareReturn else ((expr d).expect .semicolon .endReturn).emit
        .ret) := by
    intro c d h
    rw [h.sees]
    split
    · exact h.accept.emitBareReturn
    · exact ((hexpr h).expect _ _).emit _
  unfold Compiler.returnStatement
  dsimp only
  rw [h.body.isScript]
  split
  · exact hrest (h.report .returnFromScript)
  · exact hrest h

include hexpr hstmt in
theorem ifStatement (h : v.OnCompiler c d) :
    v.OnCompiler (Compiler.ifStatement expr stmt c) (Compiler.ifStatement expr stmt d) := by
  have hcondition := (hexpr (h.expect .leftParen .openIf)).expect .rightParen .closeCondition
  obtain ⟨helse, hopen⟩ := hcondition.openJump .jumpIfFalse
  obtain ⟨hend, hopen'⟩ := (hstmt (hopen.emit .pop)).openJump .jump
  have hthen := fun place => (hopen'.closeJump place).emit .pop
  unfold Compiler.ifStatement
  dsimp only
  rw [helse, hend, (hthen _).sees]
  split
  · exact (hstmt (hthen _).accept).closeJump _
  · exact (hthen _).closeJump _

include hexpr hstmt in
theorem whileStatement (h : v.OnCompiler c d) :
    v.OnCompiler (Compiler.whileStatement expr stmt c) (Compiler.whileStatement expr stmt d) := by
  have hcondition := (hexpr (h.expect .leftParen .openWhile)).expect .rightParen .closeCondition
  obtain ⟨hexit, hopen⟩ := hcondition.openJump .jumpIfFalse
  unfold Compiler.whileStatement
  dsimp only
  rw [hexit, h.codeSize]
  exact (((hstmt (hopen.emit .pop)).emitLoop _).closeJump _).emit _

include L hexpr in
theorem forInitializer (h : v.OnCompiler c d) :
    v.OnCompiler (Compiler.forInitializer expr c) (Compiler.forInitializer expr d) := by
  unfold Compiler.forInitializer
  rw [h.sees, h.sees]
  split
  · exact h.accept
  · split
    · exact h.accept.varDeclaration L hexpr
    · exact h.expressionStatement hexpr

include hexpr in
theorem forCondition (h : v.OnCompiler c d) :
    (Compiler.forCondition expr d).1 = (Compiler.forCondition expr c).1 ∧
    v.OnCompiler (Compiler.forCondition expr c).2 (Compiler.forCondition expr d).2 := by
  obtain ⟨hexit, hopen⟩ := ((hexpr h).expect .semicolon .endCondition).openJump .jumpIfFalse
  unfold Compiler.forCondition
  rw [h.sees]
  split
  · exact ⟨rfl, h.accept⟩
  · exact ⟨congrArg some hexit, hopen.emit .pop⟩

include hexpr in
theorem forIncrement (h : v.OnCompiler c d) (start : Nat) :
    (Compiler.forIncrement expr start d).1 = (Compiler.forIncrement expr start c).1 ∧
      v.OnCompiler (Compiler.forIncrement expr start c).2 (Compiler.forIncrement expr start d).2 := by
  obtain ⟨hbody, hopen⟩ := h.openJump .jump
  unfold Compiler.forIncrement
  rw [h.sees]
  split
  · exact ⟨rfl, h.accept⟩
  · refine ⟨hopen.codeSize, ?_⟩
    dsimp only
    rw [hbody]
    exact ((((hexpr hopen).emit .pop).expect _ _).emitLoop start).closeJump _

include L hexpr hstmt in
theorem forStatement (h : v.OnCompiler c d) :
    v.OnCompiler (Compiler.forStatement expr stmt c) (Compiler.forStatement expr stmt d) := by
  have hfirst := (h.openScope.expect .leftParen .openFor).forInitializer L hexpr
  obtain ⟨hexit, hsecond⟩ := hfirst.forCondition hexpr
  unfold Compiler.forStatement
  dsimp only
  rw [hfirst.codeSize, hexit]
  obtain ⟨hagain, hthird⟩ := hsecond.forIncrement hexpr
    (Compiler.forInitializer expr (c.openScope.expect .leftParen .openFor)).codeSize
  rw [hagain]
  have hbody := (hstmt hthird).emitLoop (Compiler.forIncrement expr
    (Compiler.forInitializer expr (c.openScope.expect .leftParen .openFor)).codeSize
    (Compiler.forCondition expr (Compiler.forInitializer expr (c.openScope.expect .leftParen .openFor))).2).1
  split
  · exact ((hbody.closeJump _).emit .pop).closeScope
  · exact hbody.closeScope

include hdecl in
theorem block (h : v.OnCompiler c d) (fuel : Nat) :
    v.OnCompiler (Compiler.block decl c fuel) (Compiler.block decl d fuel) := by
  induction fuel generalizing c d with
  | zero => exact h
  | succ fuel ih =>
    unfold Compiler.block
    rw [h.sees, h.sees]
    split
    · exact h.expect _ _
    · exact ih (hdecl h)

include L hexpr hstmt hdecl in
theorem anyStatement (h : v.OnCompiler c d) (fuel : Nat) :
    v.OnCompiler (Compiler.anyStatement expr stmt decl fuel c)
      (Compiler.anyStatement expr stmt decl fuel d) := by
  unfold Compiler.anyStatement
  rw [h.current.kind]
  split
  · exact ((hexpr h.accept).expect _ _).emit _
  · exact h.accept.forStatement L hexpr hstmt
  · exact h.accept.ifStatement hexpr hstmt
  · exact h.accept.returnStatement hexpr
  · exact h.accept.whileStatement hexpr hstmt
  · exact (h.accept.openScope.block hdecl fuel).closeScope
  · exact h.expressionStatement hexpr

include L in
theorem parameters (h : v.OnCompiler c d) (fuel : Nat) :
    v.OnCompiler (c.parameters fuel) (d.parameters fuel) := by
  induction fuel generalizing c d with
  | zero => exact h
  | succ fuel ih =>
    have hrest : ∀ {c d : Compiler}, v.OnCompiler c d → v.OnCompiler
        (if ((c.declareName .parameterName).2.define (c.declareName .parameterName).1).sees .comma
          then Compiler.parameters ((c.declareName .parameterName).2.define
            (c.declareName .parameterName).1).accept fuel
          else (c.declareName .parameterName).2.define (c.declareName .parameterName).1)
        (if ((d.declareName .parameterName).2.define (d.declareName .parameterName).1).sees .comma
          then Compiler.parameters ((d.declareName .parameterName).2.define
            (d.declareName .parameterName).1).accept fuel
          else (d.declareName .parameterName).2.define (d.declareName .parameterName).1) := by
      intro c d h
      obtain ⟨hglobal, hnamed⟩ := h.declareName L .parameterName
      have hdefined := hnamed.define (c.declareName .parameterName).1
      rw [hglobal, hdefined.sees]
      split
      · exact ih hdefined.accept
      · exact hdefined
    unfold Compiler.parameters
    dsimp only
    rw [h.body.function.arity]
    split
    · exact hrest (h.reportHere .tooManyParameters)
    · exact hrest (h.withBody { h.body with function := { h.body.function with arity := rfl } })

include L hdecl in
theorem functionBody (h : v.OnCompiler c d) (fuel : Nat) (name : String) :
    v.OnCompiler (Compiler.functionBody decl fuel name c)
      (Compiler.functionBody decl fuel (v.word name) d) := by
  have hbody : v.OnBody (.start false (some name)) (.start false (some (v.word name))) :=
    OnBody.start L false (some name)
  have hstarted := (h.withBody hbody).openScope.expect .leftParen .openParameters
  have hfinish : ∀ {c' d' : Compiler}, v.OnCompiler c' d' → v.OnCompiler
      ({ (Compiler.block decl ((c'.expect .rightParen .closeParameters).expect .leftBrace .openBody)
        fuel).finish.2 with
        body := c.body }.emitConstant (.function
          (Compiler.block decl ((c'.expect .rightParen .closeParameters).expect .leftBrace .openBody)
            fuel).finish.1))
      ({ (Compiler.block decl ((d'.expect .rightParen .closeParameters).expect .leftBrace .openBody)
        fuel).finish.2 with
        body := d.body }.emitConstant (.function
          (Compiler.block decl ((d'.expect .rightParen .closeParameters).expect .leftBrace .openBody)
            fuel).finish.1)) := by
    intro c' d' h'
    obtain ⟨hfunction, hfinished⟩ :=
      (((h'.expect .rightParen .closeParameters).expect .leftBrace .openBody).block hdecl fuel).finish
    exact (hfinished.withBody h.body).emitConstant (L.function hfunction)
  unfold Compiler.functionBody
  dsimp only
  rw [hstarted.sees]
  split
  · exact hfinish hstarted
  · exact hfinish (hstarted.parameters L fuel)

include L hdecl in
theorem funDeclaration (h : v.OnCompiler c d) (fuel : Nat) :
    v.OnCompiler (Compiler.funDeclaration decl fuel c) (Compiler.funDeclaration decl fuel d) := by
  obtain ⟨hglobal, hnamed⟩ := h.declareName L .functionName
  have hcompleted := hnamed.completeLocal
  unfold Compiler.funDeclaration
  dsimp only
  rw [hglobal, hcompleted.previous.lexeme]
  exact (hcompleted.functionBody L hdecl fuel _).define _

include L hexpr hstmt hdecl in
theorem anyDeclaration (h : v.OnCompiler c d) (fuel : Nat) :
    v.OnCompiler (Compiler.anyDeclaration expr stmt decl fuel c)
      (Compiler.anyDeclaration expr stmt decl fuel d) := by
  unfold Compiler.anyDeclaration
  refine recover ?_ fuel
  rw [h.current.kind]
  split
  · exact h.accept.funDeclaration L hdecl fuel
  · exact h.accept.varDeclaration L hexpr
  · exact hstmt h

end

theorem statement_declaration (L : v.Lawful) (fuel : Nat) :
    (∀ {c d}, v.OnCompiler c d → v.OnCompiler (Compiler.statement fuel c) (Compiler.statement fuel d)) ∧
      ∀ {c d}, v.OnCompiler c d → v.OnCompiler (Compiler.declaration fuel c) (Compiler.declaration fuel d) := by
  induction fuel with
  | zero => exact ⟨id, id⟩
  | succ fuel ih =>
    constructor
    · intro c d h
      rw [Compiler.statement, Compiler.statement]
      exact h.anyStatement L (expression L fuel .assignment) ih.1 ih.2 fuel
    · intro c d h
      rw [Compiler.declaration, Compiler.declaration]
      exact h.anyDeclaration L (expression L fuel .assignment) ih.1 ih.2 fuel

theorem program (L : v.Lawful) (h : v.OnCompiler c d) (fuel count : Nat) :
    v.OnCompiler (c.program fuel count) (d.program fuel count) := by
  induction count generalizing c d with
  | zero => exact h
  | succ count ih =>
    unfold Compiler.program
    rw [h.sees]
    split
    · exact h.accept
    · exact ih ((statement_declaration L fuel).2 h)

theorem start (L : v.Lawful) {ts us : List Token} (hs : List.Forall₂ v.OnToken ts us) :
    v.OnCompiler (Compiler.start ts) (Compiler.start us) where
  previous := ⟨rfl, L.empty.symm, L.line_unread, fun _ => L.empty⟩
  current := ⟨rfl, L.empty.symm, L.line_unread, fun _ => L.empty⟩
  rest := hs
  panicking := rfl
  diagnostics := .nil
  body := .start L true none

end OnCompiler

/-- Results of compilations that differ by a variation: both scripts, or diagnostics one by one. -/
inductive OnResult (v : Variation) : Except (List Diagnostic) Function → Except (List Diagnostic) Function →
    Prop
  | ok {f g : Function} (h : v.OnFunction f g) : OnResult v (.ok f) (.ok g)
  | error {as bs : List Diagnostic} (h : List.Forall₂ v.OnDiagnostic as bs) : OnResult v (.error as) (.error bs)

/-- Tokens that differ by a variation are compiled in lockstep to the end. -/
theorem Lawful.onResult (L : v.Lawful) {ts us : List Token} (hs : List.Forall₂ v.OnToken ts us) :
    v.OnResult (compileTokens ts).result (compileTokens us).result := by
  obtain ⟨hfunction, hfinished⟩ :=
    ((OnCompiler.start L hs).accept.program L (2 * ts.length + 4) (2 * ts.length + 4)).finish
  have hempty := hfinished.diagnostics.length_eq
  unfold compileTokens
  dsimp only
  rw [← hs.length_eq]
  split <;> split <;> rename_i hclean hclean'
  · exact .ok hfunction
  · rw [Array.isEmpty_iff_size_eq_zero] at hclean hclean'
    exact absurd (hempty.symm.trans hclean) hclean'
  · rw [Array.isEmpty_iff_size_eq_zero] at hclean hclean'
    exact absurd (hempty.trans hclean') hclean
  · exact .error hfinished.diagnostics

/-- Of two texts whose tokens differ by a variation, both compile or both are refused. -/
theorem Lawful.compile_cases (L : v.Lawful) {source other : String}
    (h : List.Forall₂ v.OnToken (Token.scan source) (Token.scan other)) :
    (∃ f g, compile source = .ok f ∧ compile other = .ok g ∧ v.OnFunction f g) ∨
      ∃ as bs, compile source = .error as ∧ compile other = .error bs ∧ List.Forall₂ v.OnDiagnostic as bs := by
  have hresult : v.OnResult (compile source) (compile other) := L.onResult h
  generalize compile source = x, compile other = y at hresult ⊢
  cases hresult with
  | ok hfunction => exact .inl ⟨_, _, rfl, rfl, hfunction⟩
  | error hdiagnostics => exact .inr ⟨_, _, rfl, rfl, hdiagnostics⟩

end Variation

end Lox
