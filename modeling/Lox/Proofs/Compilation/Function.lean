import Lox.Proofs.Compilation.Block

/-! # Compiling functions

A function is compiled to a body of its own, which sees none of the locals around it, and becomes a constant
of the body around it. Its parameters are the first locals of its outermost scope. -/

namespace Lox

/-- A function under compilation of which only the parameters are known. -/
def Body.ofParameters (name : String) (parameters : List String) : Body :=
  { function := { arity := operandByte parameters.length, chunk := {}, name := some name }
    isScript := false
    locals := (Scope.ofRoutine (some name) parameters).locals
    depth := 1 }

namespace Compiler

variable {decl : Compiler → Compiler} {n : Nat} {c : Compiler} {p : Point} {tokens : List Token}
    {line : UInt32} {b : Body}
  {name : String} {done : List String}

/-! ### Parameters -/

/-- A parameter counts. -/
def countParameter (c : Compiler) : Compiler :=
  if c.body.function.arity = 255 then c.reportHere .tooManyParameters
  else { c with body.function.arity := c.body.function.arity + 1 }

/-- A parameter counts and is declared. -/
def parameter (c : Compiler) : Compiler :=
  ((countParameter c).declareName .parameterName).2.define ((countParameter c).declareName .parameterName).1

theorem parameters_succ (fuel : Nat) : parameters c (fuel + 1) =
    if (parameter c).sees .comma then parameters (parameter c).accept fuel else parameter c := rfl

theorem arity_ofParameters (hlength : done.length ≤ 255) :
    (Body.ofParameters name done).function.arity = 255 ↔ done.length = 255 := by
  show operandByte done.length = 255 ↔ _
  constructor
  · intro heq
    have hnat := congrArg UInt8.toNat heq
    simp only [operandByte, UInt8.toNat_ofNat'] at hnat
    have hsmall : (255 : UInt8).toNat = 255 := rfl
    omega
  · intro heq
    rw [heq]
    rfl

theorem ofParameters_append (parameter : String) : Body.ofParameters name (done ++ [parameter]) =
    ({ Body.ofParameters name done with function.arity := (Body.ofParameters name done).function.arity + 1 } :
      Body).setScope
      ((Body.ofParameters name done).scope.declare parameter) := by
  simp [Body.ofParameters, Body.setScope, Body.scope, Scope.ofRoutine, Scope.declare, operandByte,
    UInt8.ofNat_add]

theorem admits_ofParameters (name parameter : String) :
    (Body.ofParameters name done).scope.Admits parameter ↔ parameter ∉ done ∧ done.length < 255 := by
  constructor
  · intro h
    obtain ⟨hnames, hroom⟩ := h Nat.one_ne_zero
    refine ⟨fun hmem => hnames ⟨parameter, some 1⟩ ?_ rfl rfl, ?_⟩
    · simp [Body.ofParameters, Scope.ofRoutine, hmem]
    · simp only [Body.ofParameters, Scope.ofRoutine, Body.scope, maxLocals, List.length_append,
        List.length_reverse, List.length_map, List.length_singleton] at hroom
      omega
  · rintro ⟨hnew, hlength⟩ -
    refine ⟨fun loc hloc hdepth hname => ?_, ?_⟩
    · simp only [Body.ofParameters, Scope.ofRoutine, Body.scope, List.mem_append, List.mem_reverse,
        List.mem_map, List.mem_singleton] at hloc
      rcases hloc with ⟨_, hmem, rfl⟩ | rfl
      · exact hnew (hname ▸ hmem)
      · cases hdepth
    · simp only [Body.ofParameters, Scope.ofRoutine, Body.scope, maxLocals, List.length_append,
        List.length_reverse, List.length_map, List.length_singleton]
      omega

theorem nested_ofParameters (name : String) (hlength : done.length ≤ 255) :
    (Body.ofParameters name done).scope.Nested := by
  have hnested : ∀ names : List String,
      Local.Nested 1 (names.map (fun parameter => ⟨parameter, some 1⟩) ++ [⟨"", some 0⟩]) := by
    intro names
    induction names with
    | nil => exact ⟨0, by decide, rfl, trivial⟩
    | cons parameter names ih => exact ⟨1, Nat.le_refl _, rfl, ih⟩
  refine ⟨?_, ?_⟩
  · have hreverse := hnested done.reverse
    rw [List.map_reverse] at hreverse
    exact hreverse
  · simp only [Body.ofParameters, Scope.ofRoutine, Body.scope, maxLocals, List.length_append,
      List.length_reverse, List.length_map, List.length_singleton]
    omega

/-- A parameter is read after others. -/
structure ReadsParameter (tokens : List Token) (done : List String) (x : Token × List Token) : Prop where
  tokens : tokens = x.1 :: x.2
  kind : x.1.kind = .identifier
  readable : Readable x.2
  new : x.1.lexeme ∉ done
  room : done.length < 255

theorem At.parameter (h : c.At ⟨tokens, line, .ofParameters name done⟩) (hlength : done.length ≤ 255) :
    Outcome (parameter c) fun q => ∃ x, ReadsParameter tokens done x ∧
      q = ⟨x.2, x.1.line, .ofParameters name (done ++ [x.1.lexeme])⟩ := by
  by_cases hfull : done.length = 255
  · have hcount : (countParameter c).Failed := by
      unfold countParameter
      rw [h.body, if_pos ((arity_ofParameters hlength).mpr hfull)]
      exact h.report _ _
    refine (failed_stable.define (failed_stable.declareName hcount _) _).outcome ?_
    rintro q ⟨x, hx, -⟩
    exact absurd hx.room (by omega)
  · have hcount : (countParameter c).At ⟨tokens, line, { Body.ofParameters name done with
        function.arity := (Body.ofParameters name done).function.arity + 1 }⟩ := by
      unfold countParameter
      rw [h.body, if_neg (mt (arity_ofParameters hlength).mp hfull)]
      exact h.setBody h.room
    have hbind := (hcount.declareName (nested_ofParameters name hlength) .parameterName).declares.bindOver
      (d := Compiler.parameter c) (fun hf => failed_stable.define hf _) fun x _ hat => by
        rw [← Body.add_empty (Body.begin _ _)] at hat
        exact (hat.define (fun hdepth => absurd hdepth Nat.one_ne_zero) 0).outcome
    refine hbind.iff fun q => exists_congr fun x => ?_
    have hadmits : (Body.ofParameters name done).scope.Admits x.1.lexeme ↔ x.1.lexeme ∉ done ∧
        done.length < 255 :=
      admits_ofParameters name x.1.lexeme
    constructor
    · rintro ⟨⟨htokens, hkind, hreadable, hnew, -⟩, rfl⟩
      obtain ⟨hnew, hroom⟩ := hadmits.mp hnew
      refine ⟨⟨htokens, hkind, hreadable, hnew, hroom⟩, ?_⟩
      rw [ofParameters_append]
      rfl
    · rintro ⟨⟨htokens, hkind, hreadable, hnew, hroom⟩, rfl⟩
      refine ⟨⟨htokens, hkind, hreadable, hadmits.mpr ⟨hnew, hroom⟩,
        fun hdepth => absurd hdepth Nat.one_ne_zero⟩, ?_⟩
      rw [ofParameters_append]
      rfl

/-- What is read of the parameters of a function, with the parenthesis after them. -/
structure Names where
  names : List String
  close : Token
  rest : List Token

/-- Parameters are read after others. -/
structure ReadsParameters (tokens : List Token) (done : List String) (x : Names) : Prop where
  read : Grammar.Parameters tokens x.names (x.close :: x.rest)
  kind : x.close.kind = .rightParen
  readable : Readable x.rest
  distinct : (done ++ x.names).Nodup
  room : (done ++ x.names).length ≤ 255

/-- Further parameters are read, after a comma if there are any. -/
structure ReadsMore (tokens : List Token) (done : List String) (x : Names) : Prop where
  read : (tokens = x.close :: x.rest ∧ x.names = []) ∨ ∃ comma input, tokens = comma :: input ∧
    comma.kind = .comma ∧ Grammar.Parameters input x.names (x.close :: x.rest)
  kind : x.close.kind = .rightParen
  readable : Readable x.rest
  distinct : (done ++ x.names).Nodup
  room : (done ++ x.names).length ≤ 255

theorem readsParameters_iff {token : Token} {x : Names} : ReadsParameters (token :: tokens) done x ↔
    token.kind = .identifier ∧ ∃ y, ReadsMore tokens (done ++ [token.lexeme]) y ∧
      x = ⟨token.lexeme :: y.names, y.close, y.rest⟩ := by
  constructor
  · rintro ⟨hread, hkind, hreadable, hdistinct, hroom⟩
    obtain ⟨names, close, rest⟩ := x
    dsimp only at hread hkind hreadable hdistinct hroom
    cases hread with
    | one hname =>
      exact ⟨hname, ⟨[], close, rest⟩,
        ⟨Or.inl ⟨rfl, rfl⟩, hkind, hreadable, by simpa using hdistinct, by simpa using hroom⟩, rfl⟩
    | @more _ comma input _ names hname hcomma hmore =>
      rw [List.append_cons] at hdistinct hroom
      exact ⟨hname, ⟨names, close, rest⟩, ⟨Or.inr ⟨comma, input, rfl, hcomma, hmore⟩, hkind, hreadable,
        hdistinct, hroom⟩, rfl⟩
  · rintro ⟨hname, ⟨names, close, rest⟩, ⟨hread, hkind, hreadable, hdistinct, hroom⟩, rfl⟩
    rw [List.append_assoc] at hdistinct hroom
    rcases hread with ⟨rfl, rfl⟩ | ⟨comma, input, rfl, hcomma, hmore⟩
    · exact ⟨.one hname, hkind, hreadable, hdistinct, hroom⟩
    · exact ⟨.more hname hcomma hmore, hkind, hreadable, hdistinct, hroom⟩

theorem Failed.moreParameters {d : Compiler} (h : d.Failed) (fuel : Nat) :
    ((if d.sees .comma then Compiler.parameters d.accept fuel else d).expect .rightParen
      .closeParameters).Failed := by
  refine failed_stable.expect ?_ _ _
  split
  · exact failed_stable.parameters (failed_stable.accept _ h) fuel
  · exact h

theorem At.moreParameters {d : Compiler} {fuel : Nat} (h : d.At ⟨tokens, line, .ofParameters name done⟩)
    (hlength : done.length ≤ 255) (hdistinct : done.Nodup)
    (hnext : ∀ input line', d.accept.At ⟨input, line', .ofParameters name done⟩ → input.length < tokens.length →
      Outcome ((Compiler.parameters d.accept fuel).expect .rightParen .closeParameters) fun q =>
        ∃ x, ReadsParameters input done x ∧ q = ⟨x.rest, x.close.line, .ofParameters name (done ++ x.names)⟩) :
    Outcome ((if d.sees .comma then Compiler.parameters d.accept fuel else d).expect .rightParen
      .closeParameters) fun q =>
      ∃ x, ReadsMore tokens done x ∧ q = ⟨x.rest, x.close.line, .ofParameters name (done ++ x.names)⟩ := by
  obtain ⟨token, input, htokens, -, -⟩ := h.exists_tokens
  change tokens = token :: input at htokens
  subst htokens
  by_cases hsees : d.sees .comma = true
  · rw [if_pos hsees]
    have hcomma : token.kind = .comma := (h.sees rfl _).mp hsees
    have hbind := (h.accept rfl (hcomma ▸ by decide)).bindGuard
      (fun hf => failed_stable.expect (failed_stable.parameters hf fuel) .rightParen .closeParameters)
      fun _ hat => hnext input token.line hat (Nat.lt_succ_self _)
    refine hbind.iff fun q => ?_
    constructor
    · rintro ⟨-, x, ⟨hread, hkind, hreadable, hdistinct', hroom⟩, rfl⟩
      exact ⟨x, ⟨Or.inr ⟨token, input, rfl, hcomma, hread⟩, hkind, hreadable, hdistinct', hroom⟩, rfl⟩
    · rintro ⟨x, ⟨⟨heq, -⟩ | ⟨_, _, heq, -, hread⟩, hkind, hreadable, hdistinct', hroom⟩, rfl⟩
      · cases heq
        exact absurd (hcomma.symm.trans hkind) (by decide)
      · cases heq
        exact ⟨hread.consumes.readable, x, ⟨hread, hkind, hreadable, hdistinct', hroom⟩, rfl⟩
  · rw [if_neg hsees]
    refine (h.expect .rightParen (by decide) .closeParameters).iff fun q => ?_
    constructor
    · rintro ⟨close, rest, heq, hkind, hreadable, rfl⟩
      refine ⟨⟨[], close, rest⟩, ⟨Or.inl ⟨heq, rfl⟩, hkind, hreadable, ?_, ?_⟩, by rw [List.append_nil]⟩ <;>
        rwa [List.append_nil]
    · rintro ⟨⟨names, close, rest⟩, ⟨⟨heq, rfl⟩ | ⟨comma, _, heq, hcomma, -⟩, hkind, hreadable, -, -⟩, rfl⟩
      · exact ⟨close, rest, heq, hkind, hreadable, by rw [List.append_nil]⟩
      · exact absurd ((h.sees heq _).mpr hcomma) hsees

theorem At.parameters (fuel : Nat) (h : c.At ⟨tokens, line, .ofParameters name done⟩)
    (hlength : done.length ≤ 255) (hdistinct : done.Nodup) (hfuel : tokens.length ≤ fuel) :
    Outcome ((Compiler.parameters c fuel).expect .rightParen .closeParameters) fun q =>
      ∃ x, ReadsParameters tokens done x ∧
      q = ⟨x.rest, x.close.line, .ofParameters name (done ++ x.names)⟩ := by
  induction fuel generalizing c tokens line done with
  | zero =>
    obtain ⟨token, rest, htokens, -, -⟩ := h.exists_tokens
    change tokens = token :: rest at htokens
    rw [htokens] at hfuel
    exact absurd hfuel (Nat.not_succ_le_zero _)
  | succ fuel ih =>
    rw [parameters_succ]
    have hbind := (h.parameter hlength).bindOver (fun hf => hf.moreParameters fuel) fun x hx hat => by
      have hshort : (done ++ [x.1.lexeme]).length ≤ 255 := by
        rw [List.length_append]
        exact hx.room
      have hnodup : (done ++ [x.1.lexeme]).Nodup := List.nodup_append.mpr ⟨hdistinct, by simp, by
        rintro other hmem _ hname rfl
        exact hx.new (List.mem_singleton.mp hname ▸ hmem)⟩
      refine hat.moreParameters hshort hnodup fun input line' hat' hlt => ih hat' hshort hnodup ?_
      have hlength := congrArg List.length hx.tokens
      rw [List.length_cons] at hlength
      omega
    refine hbind.iff fun q => ?_
    constructor
    · rintro ⟨⟨token, input⟩, ⟨rfl, hkind, -, -, -⟩, y, hmore, rfl⟩
      refine ⟨⟨token.lexeme :: y.names, y.close, y.rest⟩, readsParameters_iff.mpr ⟨hkind, y, hmore, rfl⟩, ?_⟩
      rw [List.append_assoc]
      rfl
    · rintro ⟨x, hx, rfl⟩
      obtain ⟨token, input, htokens, -, -⟩ := h.exists_tokens
      change tokens = token :: input at htokens
      subst htokens
      have hpasses := hx.read.consumes.tail.2
      obtain ⟨hkind, y, hmore, rfl⟩ := readsParameters_iff.mp hx
      have hroom := hmore.room
      simp only [List.length_append, List.length_singleton] at hroom
      have hnew : token.lexeme ∉ done := fun hmem => by
        have hnodup := (List.nodup_append.mp (List.nodup_append.mp hmore.distinct).1).2.2
        exact hnodup _ hmem _ (List.mem_singleton_self _) rfl
      refine ⟨(token, input), ⟨rfl, hkind, hpasses.readable (readable_cons hmore.kind (by decide)),
        hnew, by omega⟩, y, hmore, ?_⟩
      rw [List.append_assoc]
      rfl

/-! ### Bodies -/

/-- The parameters of a function, up to the brace that opens its body. -/
def opening (fuel : Nat) (c : Compiler) : Compiler :=
  let c := c.expect .leftParen .openParameters
  ((if c.sees .rightParen then c else c.parameters fuel).expect .rightParen .closeParameters).expect
    .leftBrace .openBody

/-- The parameters of a function are read, up to the brace that opens its body. -/
structure ReadsOpening (tokens : List Token) (x : Names) : Prop where
  read : Grammar.Signature tokens x.names (x.close :: x.rest)
  kind : x.close.kind = .leftBrace
  readable : Readable x.rest
  distinct : x.names.Nodup
  room : x.names.length ≤ 255

/-- The list of parameters after its opening parenthesis. -/
theorem At.closedParameters {fuel : Nat} (h : c.At ⟨tokens, line, .ofParameters name []⟩)
    (hfuel : tokens.length ≤ fuel) :
    Outcome ((if c.sees .rightParen then c else c.parameters fuel).expect .rightParen .closeParameters) fun q =>
      ∃ x : Names, (((tokens = x.close :: x.rest ∧ x.names = []) ∨
        Grammar.Parameters tokens x.names (x.close :: x.rest)) ∧
        x.close.kind = .rightParen ∧ Readable x.rest ∧ x.names.Nodup ∧ x.names.length ≤ 255) ∧
        q = ⟨x.rest, x.close.line, .ofParameters name x.names⟩ := by
  by_cases hsees : c.sees .rightParen = true
  · rw [if_pos hsees]
    refine (h.expect .rightParen (by decide) .closeParameters).iff fun q => ?_
    constructor
    · rintro ⟨close, rest, heq, hkind, hreadable, rfl⟩
      exact ⟨⟨[], close, rest⟩, ⟨Or.inl ⟨heq, rfl⟩, hkind, hreadable, List.nodup_nil, Nat.zero_le _⟩, rfl⟩
    · rintro ⟨⟨names, close, rest⟩, ⟨⟨heq, rfl⟩ | hread, hkind, hreadable, -, -⟩, rfl⟩
      · exact ⟨close, rest, heq, hkind, hreadable, rfl⟩
      · obtain ⟨token, input, htokens, -, -⟩ := h.exists_tokens
        change tokens = token :: input at htokens
        subst htokens
        have hclose : token.kind = .rightParen := (h.sees rfl _).mp hsees
        cases hread with
        | one hname | more hname => exact absurd (hclose.symm.trans hname) (by decide)
  · rw [if_neg hsees]
    refine (h.parameters fuel (Nat.zero_le _) List.nodup_nil hfuel).iff fun q => ?_
    constructor
    · rintro ⟨x, ⟨hread, hkind, hreadable, hdistinct, hroom⟩, rfl⟩
      exact ⟨x, ⟨Or.inr hread, hkind, hreadable, hdistinct, hroom⟩, rfl⟩
    · rintro ⟨x, ⟨⟨heq, -⟩ | hread, hkind, hreadable, hdistinct, hroom⟩, rfl⟩
      · exact absurd ((h.sees heq _).mpr hkind) hsees
      · exact ⟨x, ⟨hread, hkind, hreadable, hdistinct, hroom⟩, rfl⟩

theorem At.opening {fuel : Nat} (h : c.At ⟨tokens, line, .ofParameters name []⟩)
    (hfuel : tokens.length ≤ fuel) :
    Outcome (opening fuel c) fun q => ∃ x, ReadsOpening tokens x ∧
      q = ⟨x.rest, x.close.line, .ofParameters name x.names⟩ := by
  have hrest : ∀ d : Compiler, d.Failed →
      ((if d.sees .rightParen then d else d.parameters fuel).expect .rightParen .closeParameters).Failed := by
    intro d hf
    refine failed_stable.expect ?_ _ _
    split
    · exact hf
    · exact failed_stable.parameters hf fuel
  have hbind := (h.expect .leftParen (by decide) .openParameters).bind (d := Compiler.opening fuel c)
    (fun hf => failed_stable.expect (hrest _ hf) _ _) fun p hp hat => by
      have hshort : p.tokens.length ≤ fuel := by
        obtain ⟨left, input, htokens, -, -, rfl⟩ := hp
        change tokens = left :: input at htokens
        rw [htokens] at hfuel
        exact Nat.le_of_succ_le hfuel
      have hp' : p = ⟨p.tokens, p.line, .ofParameters name []⟩ := by
        obtain ⟨left, input, -, -, -, rfl⟩ := hp
        rfl
      rw [hp'] at hat
      exact (hat.closedParameters hshort).bindOver (fun hf => failed_stable.expect hf _ _)
        fun x _ hat' => hat'.expect .leftBrace (by decide) .openBody
  refine hbind.iff fun q => ?_
  constructor
  · rintro ⟨_, ⟨left, input, htokens, hleft, -, rfl⟩, ⟨names, close, rest⟩,
      ⟨hread, hclose, -, hdistinct, hroom⟩, brace, body, hbrace, hkind, hreadable, rfl⟩
    change tokens = left :: input at htokens
    subst htokens
    cases hbrace
    refine ⟨⟨names, brace, body⟩, ⟨?_, hkind, hreadable, hdistinct, hroom⟩, rfl⟩
    rcases hread with ⟨rfl, rfl⟩ | hread
    · exact .bare hleft hclose
    · exact .named hleft hread hclose
  · rintro ⟨⟨names, brace, body⟩, ⟨hread, hkind, hreadable, hdistinct, hroom⟩, rfl⟩
    dsimp only at hread hkind hreadable hdistinct hroom
    have hbrace : Readable (brace :: body) := readable_cons hkind (by decide)
    cases hread with
    | @bare left right _ hopen hclose =>
      exact ⟨_, ⟨left, right :: brace :: body, rfl, hopen, readable_cons hclose (by decide), rfl⟩,
        ⟨[], right, brace :: body⟩,
        ⟨Or.inl ⟨rfl, rfl⟩, hclose, hbrace, hdistinct, hroom⟩, brace, body, rfl, hkind, hreadable, rfl⟩
    | @named left right input _ _ hopen hnames hclose =>
      exact ⟨_, ⟨left, input, rfl, hopen, hnames.consumes.readable, rfl⟩, ⟨names, right, brace :: body⟩,
        ⟨Or.inr hnames, hclose, hbrace, hdistinct, hroom⟩, brace, body, rfl, hkind, hreadable, rfl⟩

/-- Completing a function and going back to the one around it. -/
theorem At.finish (h : c.At ⟨tokens, line, b⟩) (height : Nat) :
    c.finish.1 = (b.add (.single line height .nil ++ .single line (height + 1) .ret)).function ∧
      ∀ enclosing : Body, enclosing.count ≤ Chunk.maxConstants →
        { c.finish.2 with body := enclosing }.At ⟨tokens, line, enclosing⟩ := by
  have hnil := h.emit .nil height
  have hret := hnil.emit .ret (height + 1)
  rw [Point.add, Point.body_add, Body.add_add] at hret
  refine ⟨?_, fun enclosing hroom => ?_⟩
  · show c.emitBareReturn.body.function = _
    rw [Compiler.emitBareReturn, hret.body]
    rfl
  · have hset := hret.setBody hroom
    unfold Compiler.finish
    dsimp only
    split
    · exact ⟨hset.clean, hset.calm, hset.tokens, hset.line, hset.body, hset.readable, hset.ends, hset.room⟩
    · exact hset

/-- The function of a routine is what was compiled for its body, with a return at its end. -/
theorem function_routine (name : String) (parameters : List String) (ds : List Decl) (place : Nat)
    (line : UInt32) :
    (((Body.ofParameters name parameters).afterAll ds).add
      (.single line ((Scope.ofRoutine (some name) parameters).afterAll ds).height .nil ++
        .single line (((Scope.ofRoutine (some name) parameters).afterAll ds).height + 1) .ret)).function =
      (Routine.mk place parameters ds line).function (some name) := by
  rw [Body.afterAll, Body.add_setScope, Body.add_add, ← Fragment.append_assoc]
  simp [Body.ofParameters, Body.add, Body.setScope, Chunk.add, Routine.function, Body.scope, Body.count,
    Scope.ofRoutine]

/-- A function is read, after its name. -/
structure ReadsRoutine (tokens : List Token) (name : String) (x : Names × Block) : Prop where
  opening : ReadsOpening tokens x.1
  block : ReadsBlock x.1.rest (.ofParameters name x.1.names) x.2

/-- The routine that was read, after its name. -/
def routine (tokens : List Token) (x : Names × Block) : Routine :=
  ⟨tokens.length + 1, x.1.names, x.2.declarations, x.2.brace.line⟩

/-- The compiler at the end of the body of a function. -/
def atBodyEnd (decl : Compiler → Compiler) (fuel : Nat) (name : String) (c : Compiler) : Compiler :=
  block decl (opening fuel { c with body := .start false (some name) }.openScope) fuel

theorem functionBody_eq (fuel : Nat) (name : String) (c : Compiler) : functionBody decl fuel name c =
    { (atBodyEnd decl fuel name c).finish.2 with body := c.body }.emitConstant
      (.function (atBodyEnd decl fuel name c).finish.1) := rfl

theorem At.bodyEnd {fuel : Nat} (hdecl : ParsesDecl decl n) (h : c.At ⟨tokens, line, b⟩)
    (hn : tokens.length ≤ n)
    (hfuel : tokens.length ≤ fuel) (name : String) : Outcome (atBodyEnd decl fuel name c) fun q =>
      ∃ x, ReadsRoutine tokens name x ∧
      q = ⟨x.2.rest, x.2.brace.line, (Body.ofParameters name x.1.names).afterAll x.2.declarations⟩ := by
  have hstart : ({ c with body := .start false (some name) }).openScope.At ⟨tokens, line,
      .ofParameters name []⟩ :=
    (h.setBody (Nat.zero_le _)).openScope
  have hbind := (hstart.opening hfuel).bindOver (d := atBodyEnd decl fuel name c)
    (fun hf => failed_stable.block hdecl.failed hf fuel) fun x hx hat => by
      have hshort : x.rest.length ≤ tokens.length := by
        have hlt := hx.read.consumes.shorter
        rw [List.length_cons] at hlt
        omega
      exact hat.block hdecl fuel (nested_ofParameters name hx.room) (by omega) (by omega)
  refine hbind.iff fun q => ?_
  constructor
  · rintro ⟨x, hx, y, hy, rfl⟩
    exact ⟨(x, y), ⟨hx, hy⟩, rfl⟩
  · rintro ⟨⟨x, y⟩, ⟨hx, hy⟩, rfl⟩
    exact ⟨x, hx, y, hy, rfl⟩

theorem At.functionBody {fuel : Nat} (hdecl : ParsesDecl decl n) (h : c.At ⟨tokens, line, b⟩)
    (hn : tokens.length ≤ n)
    (hfuel : tokens.length ≤ fuel) (height : Nat) : Outcome (functionBody decl fuel name c) fun q =>
      ∃ x, (ReadsRoutine tokens name x ∧ b.count < Chunk.maxConstants) ∧
        q = ⟨x.2.rest, x.2.brace.line, b.add (.pool (.function ((routine tokens x).function (some name))) ++
          .single x.2.brace.line height (.constant (operandByte b.count)))⟩ := by
  have hbind := (h.bodyEnd hdecl hn hfuel name).bindOver (d := Compiler.functionBody decl fuel name c)
    (fun hf => failed_stable.emitConstant (failed_stable.body _ _ (failed_stable.finish hf)) _)
      fun x _ hat => by
      obtain ⟨hfunction, hat'⟩ :=
        hat.finish ((Scope.ofRoutine (some name) x.1.names).afterAll x.2.declarations).height
      rw [functionBody_eq, hfunction, function_routine name x.1.names x.2.declarations (tokens.length + 1),
        h.body]
      exact (hat' b h.room).emitConstant _ height
  refine hbind.iff fun q => ?_
  constructor
  · rintro ⟨x, hx, hroom, rfl⟩
    exact ⟨x, ⟨hx, hroom⟩, rfl⟩
  · rintro ⟨x, ⟨hx, hroom⟩, rfl⟩
    exact ⟨x, hx, hroom, rfl⟩

/-! ### Declarations -/

/-- The body around a function whose name is declared. -/
def named (b : Body) (name : String) : Body :=
  (b.add (if b.depth = 0 then .pool (.string name) else {})).setScope (b.scope.declare name)

/-- Completing a declaration that is complete changes nothing. -/
theorem At.completeLocal_again (h : c.At p) (name : String) (hlocals : p.body.scope = b.scope.declare name) :
    c.completeLocal.At p := by
  obtain ⟨tokens, line, body⟩ := p
  unfold Compiler.completeLocal
  rw [h.body]
  obtain ⟨function, isScript, locals, depth⟩ := body
  dsimp only
  by_cases hdepth : depth = 0
  · rw [if_pos hdepth]
    exact h
  · have hsame := congrArg Scope.depth hlocals
    rw [Scope.depth_declare] at hsame
    change depth = b.depth at hsame
    have heq : locals = ⟨name, some depth⟩ :: b.locals := by
      rw [Scope.declare, if_neg (show b.scope.depth ≠ 0 by rwa [Body.depth_scope, ← hsame])] at hlocals
      rw [hsame]
      exact congrArg Scope.locals hlocals
    subst heq
    rw [if_neg hdepth]
    exact h.setBody h.room

theorem At.defineFunction {f : Fragment} {name : String} {global : UInt8}
    (h : c.At ⟨tokens, line, (named b name).add f⟩)
    (hglobal : b.depth = 0 → global = operandByte b.count) (height : Nat) :
    (c.define global).At ⟨tokens, line, (b.add (if b.depth = 0 then .pool (.string name) ++ f ++
      .single line (height + 1) (.defineGlobal (operandByte b.count)) else f)).setScope
        (b.scope.declare name)⟩ := by
  unfold Compiler.define
  have hdepth' : ((named b name).add f).depth = b.depth := Scope.depth_declare b.scope name
  rw [h.body, hdepth']
  by_cases hdepth : b.depth = 0
  · have hemit := h.emit (.defineGlobal (operandByte b.count)) (height + 1)
    rw [if_neg (Nat.not_lt.mpr (Nat.le_of_eq hdepth)), if_pos hdepth, hglobal hdepth]
    rw [named, if_pos hdepth, Body.add_setScope, Point.add, Body.add_setScope, Body.add_add,
      Body.add_add] at hemit
    exact hemit
  · have hsame : (named b name).add f = (b.add f).setScope (b.scope.declare name) := by
      rw [named, if_neg hdepth, Body.add_empty, Body.add_setScope]
    rw [if_pos (Nat.pos_of_ne_zero hdepth), if_neg hdepth]
    rw [hsame] at h
    exact h.completeLocal_again (b := b) name rfl

theorem At.completeName {name : String} (h : c.At ⟨tokens, line, b.begin name⟩) :
    c.completeLocal.At ⟨tokens, line, named b name⟩ := by
  refine h.completeLocal (b := b.add (if b.depth = 0 then .pool (.string name) else {})) ?_
  rw [← Body.add_declare]
  rfl

/-- The code of the declaration of a function around the constant that it is. -/
theorem code_function (b : Body) (name : String) (r : Routine) : (Decl.function name r).code b.scope b.count =
    if b.depth = 0 then .pool (.string name) ++ (.pool (.function (r.function (some name))) ++
      .single r.line b.scope.height (.constant (operandByte (named b name).count))) ++
        .single r.line (b.scope.height + 1) (.defineGlobal (operandByte b.count))
    else .pool (.function (r.function (some name))) ++
      .single r.line b.scope.height (.constant (operandByte (named b name).count)) := by
  rw [Decl.code, Body.depth_scope, named, Body.count_setScope, Body.count_add]
  by_cases hdepth : b.depth = 0
  · rw [if_pos hdepth, if_pos hdepth, if_pos hdepth, ← Fragment.append_assoc]
    rfl
  · rw [if_neg hdepth, if_neg hdepth, if_neg hdepth]
    rfl

theorem fits_function {name : String} {r : Routine} : (Decl.function name r).Fits b ↔
    b.scope.Admits name ∧ (b.depth = 0 → b.count < Chunk.maxConstants) ∧
      (named b name).count < Chunk.maxConstants ∧ r.Allowed (some name) := by
  unfold Decl.Fits
  rw [code_function, Decl.Allowed, named, Body.count_setScope, Body.count_add]
  by_cases hdepth : b.depth = 0
  · simp only [hdepth, if_true, Fragment.constants_append, Fragment.constants_pool, Fragment.constants_single,
      List.length_append, List.length_cons, List.length_nil]
    constructor
    · rintro ⟨⟨hadmits, hallowed⟩, hroom⟩
      exact ⟨hadmits, fun _ => by omega, by omega, hallowed⟩
    · rintro ⟨hadmits, -, hroom, hallowed⟩
      exact ⟨⟨hadmits, hallowed⟩, by omega⟩
  · simp only [hdepth, if_false, Fragment.constants_append, Fragment.constants_pool, Fragment.constants_single,
      List.length_append, List.length_cons, List.length_nil, false_implies, true_and]
    constructor
    · rintro ⟨⟨hadmits, hallowed⟩, hroom⟩
      exact ⟨hadmits, by omega, hallowed⟩
    · rintro ⟨hadmits, hroom, hallowed⟩
      exact ⟨⟨hadmits, hallowed⟩, by omega⟩

theorem allowed_routine {name : String} {x : Names × Block} : (routine tokens x).Allowed (some name) ↔
    x.1.names.length ≤ 255 ∧ x.1.names.Nodup ∧ Decl.AllFit (.ofParameters name x.1.names) x.2.declarations := by
  rw [routine, Routine.Allowed, Decl.AllFit]
  have hcount : (Body.ofParameters name x.1.names).count = 0 := rfl
  rw [hcount, Nat.zero_add]
  exact Iff.rfl

theorem declaration_function_iff {word : Token} {rest : List Token} {d : Decl} (hword : word.kind = .funWord) :
    Grammar.Declaration (word :: tokens) d rest ↔ ∃ (name : Token) (input : List Token) (x : Names × Block),
      tokens = name :: input ∧ name.kind = .identifier ∧
      Grammar.Signature input x.1.names (x.1.close :: x.1.rest) ∧
      x.1.close.kind = .leftBrace ∧ Grammar.Declarations x.1.rest x.2.declarations (x.2.brace :: x.2.rest) ∧
      x.2.brace.kind = .rightBrace ∧ rest = x.2.rest ∧ d = .function name.lexeme (routine input x) := by
  constructor
  · intro h
    cases h with
    | var h => exact absurd (hword.symm.trans h) (by decide)
    | @function _ name left right input body _ parameters ds _ hname hparameters hopen hds hclose =>
      exact ⟨name, input, (⟨parameters, left, body⟩, ⟨ds, right, rest⟩), rfl, hname, hparameters, hopen, hds,
        hclose, rfl, rfl⟩
    | statement hs =>
      have hstarts := hs.starts_cons
      rw [hword] at hstarts
      cases hstarts
  · rintro ⟨name, input, x, rfl, hname, hparameters, hopen, hds, hclose, rfl, rfl⟩
    exact .function hword hname hparameters hopen hds hclose

/-- A `fun` declaration, after its name. -/
theorem At.namedFunction {fuel : Nat} {name : String} {global : UInt8} (hdecl : ParsesDecl decl n)
    (h : c.At ⟨tokens, line, b.begin name⟩) (hn : tokens.length ≤ n) (hfuel : tokens.length ≤ fuel)
    (hglobal : b.depth = 0 → global = operandByte b.count) :
    Outcome ((Compiler.functionBody decl fuel name c.completeLocal).define global) fun q =>
      ∃ x, (ReadsRoutine tokens name x ∧ (named b name).count < Chunk.maxConstants) ∧
        q = ⟨x.2.rest, x.2.brace.line, b.after (.function name (routine tokens x))⟩ := by
  refine (h.completeName.functionBody hdecl hn hfuel b.scope.height).bindOver
    (fun hf => failed_stable.define hf _)
    fun x _ hat => ?_
  have hdefine := hat.defineFunction hglobal b.scope.height
  rw [Body.after, code_function]
  exact hdefine.outcome

theorem funDeclaration_eq (fuel : Nat) (c : Compiler) : funDeclaration decl fuel c =
    (functionBody decl fuel (c.declareName .functionName).2.completeLocal.previous.lexeme
      (c.declareName .functionName).2.completeLocal).define (c.declareName .functionName).1 := rfl

/-- A `fun` declaration, after the word. -/
theorem At.funDeclaration {word : Token} {fuel : Nat} (hdecl : ParsesDecl decl n) (h : c.At ⟨tokens, line, b⟩)
    (hnested : b.scope.Nested) (hn : tokens.length ≤ n) (hfuel : tokens.length ≤ fuel)
    (hword : word.kind = .funWord) :
    Outcome (funDeclaration decl fuel c) (ReadsDecl (word :: tokens) b) := by
  rw [funDeclaration_eq]
  have hbind := (h.declareName hnested .functionName).declares.bindOver
    (fun hf => failed_stable.define (failed_stable.functionBody hdecl.failed
      (failed_stable.completeLocal hf) fuel
      (c.declareName .functionName).2.completeLocal.previous.lexeme) (c.declareName .functionName).1)
    fun x hx hat => by
      have hdeclares := declares_iff.mpr ⟨x, hx, rfl⟩
      have hname : (c.declareName .functionName).2.completeLocal.previous.lexeme = x.1.lexeme := by
        rw [previous_completeLocal, h.previous_declareName hdeclares,
          (List.cons.inj (h.tokens.trans hx.tokens)).1]
      have hrest := hat.namedFunction hdecl (Nat.le_trans hx.length_le hn) (Nat.le_trans hx.length_le hfuel)
        fun hdepth => h.declareName_index hdeclares hdepth .functionName
      rw [hname]
      exact hrest
  refine hbind.iff fun q => ?_
  constructor
  · rintro ⟨⟨name, input⟩, ⟨htokens, hname, -, hadmits, hroom⟩, x, ⟨⟨hopening, hblock⟩, hroom'⟩, rfl⟩
    refine ⟨(.function name.lexeme (routine input x), x.2.rest), ⟨?_, hblock.readable, ?_⟩, rfl⟩
    · exact (declaration_function_iff hword).mpr ⟨name, input, x, htokens, hname, hopening.read,
        hopening.kind, hblock.read, hblock.kind, rfl, rfl⟩
    · exact fits_function.mpr ⟨hadmits, hroom, hroom',
        allowed_routine.mpr ⟨hopening.room, hopening.distinct, hblock.fits⟩⟩
  · rintro ⟨⟨d, rest⟩, ⟨hread, hreadable, hfits⟩, rfl⟩
    obtain ⟨name, input, x, htokens, hname, hsignature, hopen, hds, hclose, hrest, rfl⟩ :=
      (declaration_function_iff hword).mp hread
    change rest = x.2.rest at hrest
    subst hrest
    obtain ⟨hadmits, hroom, hroom', hallowed⟩ := fits_function.mp hfits
    obtain ⟨hlength, hdistinct, hfits'⟩ := allowed_routine.mp hallowed
    have hbody : Readable x.1.rest := hds.passes.readable (readable_cons hclose (by decide))
    exact ⟨(name, input), ⟨htokens, hname, hsignature.consumes.readable, hadmits, hroom⟩, x,
      ⟨⟨⟨hsignature, hopen, hbody, hdistinct, hlength⟩, hds, hclose, hreadable, hfits'⟩, hroom'⟩, rfl⟩

end Compiler

end Lox
