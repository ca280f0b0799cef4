import Lox.Proofs.Compilation.Stable
import Lox.Proofs.Rules
import Lox.Proofs.Scan

/-! # Where a compilation is

As long as there is no diagnostic, a compilation depends on the tokens that are left, the line of the last one
that was accepted, and the function that is being compiled: a point. What a part of the compiler does is said
by the points that it can reach. `Outcome c T` says that the state `c` is at every point of `T`, and has
failed if `T` has none; outcomes compose like the parts of the compiler. -/

namespace Lox

/-! ### Code of a function under compilation -/

/-- Adds a fragment to the end of a chunk. -/
def Chunk.add (chunk : Chunk) (f : Fragment) : Chunk :=
  { code := chunk.code ++ f.bytes.toArray
    lines := chunk.lines ++ f.lines.toArray
    constants := chunk.constants ++ f.constants }

namespace Body

/-- Adds a fragment to the code. -/
def add (b : Body) (f : Fragment) : Body := { b with function.chunk := b.function.chunk.add f }

/-- The number of bytes of code. -/
def size (b : Body) : Nat := b.function.chunk.size

/-- The number of constants. -/
def count (b : Body) : Nat := b.function.chunk.constants.length

/-- The locals in scope. -/
def scope (b : Body) : Scope := ⟨b.locals, b.depth⟩

/-- Changes the locals in scope. -/
def setScope (b : Body) (scope : Scope) : Body := { b with locals := scope.locals, depth := scope.depth }

section

variable (b : Body) (f g : Fragment) (scope : Scope)

@[simp] theorem locals_add : (b.add f).locals = b.locals := rfl

@[simp] theorem depth_add : (b.add f).depth = b.depth := rfl

@[simp] theorem isScript_add : (b.add f).isScript = b.isScript := rfl

@[simp] theorem locals_scope : b.scope.locals = b.locals := rfl

@[simp] theorem depth_scope : b.scope.depth = b.depth := rfl

@[simp] theorem scope_add : (b.add f).scope = b.scope := rfl

@[simp] theorem scope_setScope : (b.setScope scope).scope = scope := rfl

@[simp] theorem isScript_setScope : (b.setScope scope).isScript = b.isScript := rfl

@[simp] theorem size_setScope : (b.setScope scope).size = b.size := rfl

@[simp] theorem count_setScope : (b.setScope scope).count = b.count := rfl

@[simp] theorem add_setScope_scope : (b.add f).setScope b.scope = b.add f := rfl

@[simp] theorem setScope_self : b.setScope b.scope = b := rfl

@[simp] theorem setScope_setScope (other : Scope) : (b.setScope scope).setScope other = b.setScope other := rfl

theorem add_setScope : (b.setScope scope).add f = (b.add f).setScope scope := rfl

@[simp] theorem size_add : (b.add f).size = b.size + f.size := by
  simp [size, add, Chunk.add, Chunk.size, Fragment.length_bytes]

@[simp] theorem count_add : (b.add f).count = b.count + f.constants.length := by
  simp [count, add, Chunk.add]

@[simp] theorem add_empty : b.add {} = b := by
  obtain ⟨⟨arity, ⟨code, lines, constants⟩, name⟩, isScript, locals, depth⟩ := b
  simp [add, Chunk.add, Fragment.bytes, Fragment.lines]

theorem add_add : (b.add f).add g = b.add (f ++ g) := by
  simp [add, Chunk.add, List.append_assoc]

end

end Body

/-! ### Points -/

/-- A point of a compilation without diagnostics. -/
structure Point where
  /-- The token at hand and those after it. -/
  tokens : List Token
  /-- The line of the last accepted token. -/
  line : UInt32
  body : Body

namespace Point

/-- Adds a fragment to the code. -/
def add (p : Point) (f : Fragment) : Point := { p with body := p.body.add f }

@[simp] theorem tokens_add (p : Point) (f : Fragment) : (p.add f).tokens = p.tokens := rfl

@[simp] theorem line_add (p : Point) (f : Fragment) : (p.add f).line = p.line := rfl

@[simp] theorem body_add (p : Point) (f : Fragment) : (p.add f).body = p.body.add f := rfl

end Point

/-- The token at hand is no lexical error. -/
def Readable (tokens : List Token) : Prop := ∀ token ∈ tokens.head?, token.kind ≠ .error

theorem readable_cons {token : Token} {kind : Token.Kind} {rest : List Token} (h : token.kind = kind)
    (hkind : kind ≠ .error) : Readable (token :: rest) := by
  rintro _ ⟨⟩
  rw [h]
  exact hkind

namespace Compiler

/-- The compilation is at a point and has no diagnostic. -/
structure At (c : Compiler) (p : Point) : Prop where
  clean : c.diagnostics = #[]
  calm : c.panicking = false
  tokens : c.current :: c.rest = p.tokens
  line : c.previous.line = p.line
  body : c.body = p.body
  readable : c.current.kind ≠ .error
  ends : Ends p.tokens
  room : p.body.count ≤ Chunk.maxConstants

/-- The state is at every point of `T`, and has failed if there is none. -/
def Outcome (c : Compiler) (T : Point → Prop) : Prop := (∀ q, T q → c.At q) ∧ (c.Failed ∨ ∃ q, T q)

section

variable {c d : Compiler} {p : Point} {T U : Point → Prop}

theorem At.outcome (h : c.At p) : Outcome c (· = p) := ⟨fun _ hq => hq ▸ h, Or.inr ⟨p, rfl⟩⟩

theorem Failed.outcome (h : c.Failed) (hT : ∀ q, ¬T q) : Outcome c T := ⟨fun q hq => absurd hq (hT q), Or.inl h⟩

theorem Outcome.iff (h : Outcome c T) (hT : ∀ q, T q ↔ U q) : Outcome c U :=
  ⟨fun q hq => h.1 q ((hT q).mpr hq), h.2.imp id fun ⟨q, hq⟩ => ⟨q, (hT q).mp hq⟩⟩

/-- One part of the compiler after another. -/
theorem Outcome.bind {U : Point → Point → Prop} (h : Outcome c T) (hfailed : c.Failed → d.Failed)
    (hnext : ∀ p, T p → c.At p → Outcome d (U p)) : Outcome d fun q => ∃ p, T p ∧ U p q := by
  constructor
  · rintro q ⟨p, hp, hq⟩
    exact (hnext p hp (h.1 p hp)).1 q hq
  · rcases h.2 with hf | ⟨p, hp⟩
    · exact Or.inl (hfailed hf)
    · rcases (hnext p hp (h.1 p hp)).2 with hf | ⟨q, hq⟩
      · exact Or.inl hf
      · exact Or.inr ⟨q, p, hp, hq⟩

/-- One part of the compiler after another, where the points in between are known by what was read. -/
theorem Outcome.bindOver {α : Type} {G : α → Prop} {f : α → Point} {V : α → Point → Prop}
    (h : Outcome c fun q => ∃ x, G x ∧ q = f x) (hfailed : c.Failed → d.Failed)
    (hnext : ∀ x, G x → c.At (f x) → Outcome d (V x)) : Outcome d fun q => ∃ x, G x ∧ V x q := by
  constructor
  · rintro q ⟨x, hx, hq⟩
    exact (hnext x hx (h.1 _ ⟨x, hx, rfl⟩)).1 q hq
  · rcases h.2 with hf | ⟨_, x, hx, rfl⟩
    · exact Or.inl (hfailed hf)
    · rcases (hnext x hx (h.1 _ ⟨x, hx, rfl⟩)).2 with hf | ⟨q, hq⟩
      · exact Or.inl hf
      · exact Or.inr ⟨q, x, hx, hq⟩

/-- The line at which a compilation is can be read off its state. -/
theorem Outcome.anyLine {α : Type} {G : α → Prop} {f : α → Point} (h : Outcome c fun q => ∃ x, G x ∧ q = f x) :
    Outcome c fun q => ∃ x, G x ∧ q = ⟨(f x).tokens, c.previous.line, (f x).body⟩ := by
  have hsame : ∀ x, G x → f x = ⟨(f x).tokens, c.previous.line, (f x).body⟩ := fun x hx => by
    rw [(h.1 _ ⟨x, hx, rfl⟩).line]
  refine h.iff fun q => exists_congr fun x => and_congr_right fun hx => ?_
  rw [← hsame x hx]

/-- One part of the compiler after another, where the first reaches a point under a condition. -/
theorem Outcome.bindGuard {G : Prop} (h : Outcome c fun q => G ∧ q = p) (hfailed : c.Failed → d.Failed)
    (hnext : G → c.At p → Outcome d U) : Outcome d fun q => G ∧ U q := by
  have hbind := h.bind (U := fun _ => U) hfailed fun r hr hat => hnext hr.1 (hr.2 ▸ hat)
  exact hbind.iff fun q => ⟨fun ⟨_, hr, hq⟩ => ⟨hr.1, hq⟩, fun ⟨hg, hq⟩ => ⟨p, ⟨hg, rfl⟩, hq⟩⟩

/-- A state that is at a point under a condition, and has failed otherwise. -/
theorem outcome_guard {G : Prop} (hat : G → c.At p) (hfailed : ¬G → c.Failed) : Outcome c fun q =>
    G ∧ q = p := by
  by_cases hg : G
  · exact (hat hg).outcome.iff fun q => ⟨fun hq => ⟨hg, hq⟩, And.right⟩
  · exact (hfailed hg).outcome fun q hq => hg hq.1

/-! ### Reporting and moving -/

theorem failed_reportAt (h : c.panicking = false) (token : Token) (cause : Diagnostic.Cause) :
    (c.reportAt token cause).Failed := by
  unfold Compiler.reportAt
  rw [h]
  simp [Failed]

theorem At.report (h : c.At p) (token : Token) (cause : Diagnostic.Cause) : (c.reportAt token cause).Failed :=
  failed_reportAt h.calm token cause

/-- Accepting a token that is not the last one. -/
theorem At.accept {token : Token} {rest : List Token} (h : c.At p) (htokens : p.tokens = token :: rest)
    (hkind : token.kind ≠ .endOfInput) : Outcome c.accept fun q =>
      Readable rest ∧ q = ⟨rest, token.line, p.body⟩ := by
  have hends : Ends (token :: rest) := htokens ▸ h.ends
  obtain ⟨rfl, hrest⟩ : c.current = token ∧ c.rest = rest := by
    have := h.tokens.trans htokens
    simpa using this
  cases rest with
  | nil => exact absurd hends hkind
  | cons next rest =>
    unfold Compiler.accept
    rw [hrest, Compiler.shift]
    split <;> rename_i herror
    · have hfailed := failed_reportAt (c := { c with previous := c.current, rest := next :: rest }) h.calm next
        (.lexical next.lexeme)
      exact Failed.outcome (hfailed.shift rest) fun q hq => hq.1 next rfl herror
    · have hat : { c with previous := c.current, current := next, rest }.At ⟨next :: rest, c.current.line,
          p.body⟩ :=
        ⟨h.clean, h.calm, rfl, rfl, h.body, herror, hends.2, h.room⟩
      exact hat.outcome.iff fun q => ⟨fun hq => ⟨readable_cons rfl herror, hq⟩, And.right⟩

theorem At.sees {token : Token} {rest : List Token} (h : c.At p) (htokens : p.tokens = token :: rest)
    (kind : Token.Kind) : c.sees kind = true ↔ token.kind = kind := by
  obtain ⟨rfl, -⟩ : c.current = token ∧ c.rest = rest := by
    have := h.tokens.trans htokens
    simpa using this
  simp [Compiler.sees]

theorem At.exists_tokens (h : c.At p) : ∃ token rest, p.tokens = token :: rest ∧ c.current = token ∧
    c.rest = rest :=
  ⟨c.current, c.rest, h.tokens.symm, rfl, rfl⟩

/-- Accepting a token of an expected kind. -/
def Takes (kind : Token.Kind) (p q : Point) : Prop :=
  ∃ token rest, p.tokens = token :: rest ∧ token.kind = kind ∧ Readable rest ∧ q = ⟨rest, token.line, p.body⟩

theorem At.accept_takes {kind : Token.Kind} (h : c.At p) (hsees : c.sees kind = true)
    (hkind : kind ≠ .endOfInput) :
    Outcome c.accept (Takes kind p) := by
  obtain ⟨token, rest, htokens, -, -⟩ := h.exists_tokens
  have heq : token.kind = kind := (h.sees htokens kind).mp hsees
  refine (h.accept htokens (heq ▸ hkind)).iff fun q => ?_
  constructor
  · rintro ⟨hread, rfl⟩
    exact ⟨token, rest, htokens, heq, hread, rfl⟩
  · rintro ⟨token', rest', htokens', -, hread, rfl⟩
    cases htokens.symm.trans htokens'
    exact ⟨hread, rfl⟩

theorem At.expect (h : c.At p) (kind : Token.Kind) (hkind : kind ≠ .endOfInput)
    (what : Diagnostic.Expectation) :
    Outcome (c.expect kind what) (Takes kind p) := by
  unfold Compiler.expect
  by_cases hsees : c.sees kind = true
  · rw [if_pos hsees]
    exact h.accept_takes hsees hkind
  · rw [if_neg hsees]
    refine Failed.outcome (h.report _ _) fun q hq => hsees ?_
    obtain ⟨token, rest, htokens, heq, -, -⟩ := hq
    exact (h.sees htokens kind).mpr heq

end

end Compiler

end Lox
