import Lox.Listing
import Lox.Proofs.Tiling
import Lox.Proofs.Verification.Lines
import Lox.Proofs.Verification.Decoding

/-! # Line tables

An instruction is written with the line of a token that has been read, and code is written in the order of the
text, so the lines of compiled code come in the order of the lines of the tokens. The derivation of a program
in the grammar tells which tokens are read before a piece of code is written and which after it: along the
derivation, the code of each construct has lines from that of its first token up to that of its last one. -/

namespace Lox

/-! ### Lines in order -/

/-- Lines that come in order, from `low` to `high`. -/
structure Ascending (low high : UInt32) (lines : List UInt32) : Prop where
  le : low ≤ high
  sorted : lines.Pairwise (· ≤ ·)
  within : ∀ line ∈ lines, low ≤ line ∧ line ≤ high

namespace Ascending

variable {low middle high line : UInt32} {a b : List UInt32}

theorem append (h : Ascending low middle a) (h' : Ascending middle high b) : Ascending low high (a ++ b) where
  le := UInt32.le_trans h.le h'.le
  sorted := by
    refine List.pairwise_append.mpr ⟨h.sorted, h'.sorted, fun first hfirst second hsecond => ?_⟩
    exact UInt32.le_trans (h.within first hfirst).2 (h'.within second hsecond).1
  within := by
    refine List.forall_mem_append.mpr ⟨fun line hline => ?_, fun line hline => ?_⟩
    · exact ⟨(h.within line hline).1, UInt32.le_trans (h.within line hline).2 h'.le⟩
    · exact ⟨UInt32.le_trans h.le (h'.within line hline).1, (h'.within line hline).2⟩

theorem replicate (hlow : low ≤ line) (hhigh : line ≤ high) (count : Nat) :
    Ascending low high (List.replicate count line) where
  le := UInt32.le_trans hlow hhigh
  sorted := List.pairwise_replicate.mpr (Or.inr (UInt32.le_refl line))
  within other hother := by
    rw [List.eq_of_mem_replicate hother]
    exact ⟨hlow, hhigh⟩

theorem nil (h : low ≤ high) : Ascending low high [] := ⟨h, .nil, fun _ hline => absurd hline List.not_mem_nil⟩

end Ascending

namespace Token

/-- Tokens that come in the order of their lines, none of which is before `low`. -/
def Ordered : (low : UInt32) → List Token → Prop
  | _, [] => True
  | low, token :: tokens => low ≤ token.line ∧ Ordered token.line tokens

namespace Ordered

variable {low lower : UInt32} {token : Token} {tokens rest : List Token}

theorem mono (h : Ordered low tokens) (hle : lower ≤ low) : Ordered lower tokens := by
  cases tokens with
  | nil => trivial
  | cons token tokens => exact ⟨UInt32.le_trans hle h.1, h.2⟩

theorem tail (h : Ordered low (token :: tokens)) : Ordered low tokens := h.2.mono h.1

theorem passes (h : Ordered low tokens) (hpasses : Grammar.Passes tokens rest) : Ordered low rest := by
  obtain ⟨taken, rfl, -⟩ := hpasses
  induction taken with
  | nil => exact h
  | cons token taken ih => exact ih h.tail

theorem of_pairwise (hsorted : tokens.Pairwise (·.line ≤ ·.line)) (hlow : ∀ token ∈ tokens, low ≤ token.line) :
    Ordered low tokens := by
  induction tokens generalizing low with
  | nil => trivial
  | cons token tokens ih =>
    obtain ⟨hfirst, hrest⟩ := List.pairwise_cons.mp hsorted
    exact ⟨hlow token List.mem_cons_self, ih hrest hfirst⟩

end Ordered

end Token

/-! ### Fragments -/

namespace Fragment

/-- The lines of the code come in order, from `low` to `high`, and so do those of every function
    in its constants. -/
structure Ascends (code : Fragment) (low high : UInt32) : Prop where
  lines : Ascending low high code.lines
  functions : ∀ f, .function f ∈ code.constants → ∀ g ∈ f.all, Ascending low high g.chunk.lines.toList

variable {a b : Fragment} {low middle high line : UInt32} {height : Nat} {i : Instruction}

theorem Ascends.le (h : a.Ascends low high) : low ≤ high := h.lines.le

theorem Ascends.append (h : a.Ascends low middle) (h' : b.Ascends middle high) : (a ++ b).Ascends low high where
  lines := by
    rw [lines_append]
    exact h.lines.append h'.lines
  functions f hf g hg := by
    rcases List.mem_append.mp hf with hf | hf
    · simpa using (h.functions f hf g hg).append (.nil h'.le)
    · simpa using (Ascending.nil h.le).append (h'.functions f hf g hg)

theorem ascends_empty (h : low ≤ high) : Ascends {} low high := ⟨.nil h, fun _ hf => absurd hf List.not_mem_nil⟩

theorem Ascends.mono (h : a.Ascends low middle) (hle : middle ≤ high) : a.Ascends low high := by
  simpa using h.append (ascends_empty hle)

theorem ascends_single (hlow : low ≤ line) (hhigh : line ≤ high) : (single line height i).Ascends low high where
  lines := by simpa [single, Fragment.lines] using Ascending.replicate hlow hhigh i.size
  functions _ hf := absurd hf List.not_mem_nil

/-- After some code, an instruction on a later line. -/
theorem Ascends.single (h : a.Ascends low high) (hle : high ≤ line) :
    (a ++ .single line height i).Ascends low line :=
  h.append (ascends_single hle (UInt32.le_refl line))

/-- After some code, an instruction on its last line. -/
theorem Ascends.last (h : a.Ascends low line) : (a ++ .single line height i).Ascends low line :=
  h.single (UInt32.le_refl line)

theorem ascends_pool {constant : Constant} (hle : low ≤ high)
    (h : ∀ f, constant = .function f → ∀ g ∈ f.all, Ascending low high g.chunk.lines.toList) :
    (pool constant).Ascends low high :=
  ⟨.nil hle, fun f hf => h f (List.mem_singleton.mp hf).symm⟩

theorem ascends_name (low : UInt32) (name : String) : (pool (.string name)).Ascends low low :=
  ascends_pool (UInt32.le_refl low) fun _ heq => by cases heq

theorem Ascends.pops (h : a.Ascends low high) (hle : high ≤ line) (height count : Nat) :
    (a ++ .pops line height count).Ascends low line := by
  induction count generalizing a high with
  | zero => simpa [Fragment.pops] using h.mono hle
  | succ count ih =>
    rw [Fragment.pops, ← append_assoc]
    exact ih (h.single hle) (UInt32.le_refl line)

end Fragment

open Fragment

theorem Literal.ascends {low line : UInt32} (hle : low ≤ line) (literal : Literal) (count height : Nat) :
    (literal.code line count height).Ascends low line := by
  cases literal with
  | nil => exact ascends_single hle (UInt32.le_refl line)
  | bool b => cases b <;> exact ascends_single hle (UInt32.le_refl line)
  | number bits => exact (ascends_pool (UInt32.le_refl low) fun _ heq => by cases heq).single hle
  | string text => exact (ascends_name low text).single hle

theorem BinaryOp.ascends (op : BinaryOp) (line : UInt32) (height : Nat) :
    (op.code line height).Ascends line line := by
  have hle := UInt32.le_refl line
  unfold BinaryOp.code
  refine (ascends_single hle hle).append ?_
  split
  · exact ascends_single hle hle
  · exact ascends_empty hle

/-! ### Along a derivation -/

namespace Grammar

mutual

theorem Expression.ascends {low : UInt32} {level : Level} {input rest : List Token} {e : Expr} :
    Expression level input e rest → Token.Ordered low input →
    (∀ locals count height, (e.code locals count height).Ascends low e.endLine) ∧ Token.Ordered e.endLine rest
  | .assign _ _ hvalue, h => by
    obtain ⟨hcode, hrest⟩ := hvalue.ascends h.tail.tail
    refine ⟨fun locals count height => ?_, hrest⟩
    rw [Expr.code, Expr.endLine]
    split
    · exact (hcode ..).last
    · exact ((ascends_name low _).append (hcode ..)).last
  | .or hleft _ hright, h => by
    obtain ⟨hcode, hword⟩ := hleft.ascends h
    obtain ⟨hcode', hrest⟩ := hright.ascends hword.2
    refine ⟨fun locals count height => ?_, hrest⟩
    exact ((hcode ..).single hword.1).last.last.append (hcode' ..)
  | .and hleft _ hright, h => by
    obtain ⟨hcode, hword⟩ := hleft.ascends h
    obtain ⟨hcode', hrest⟩ := hright.ascends hword.2
    refine ⟨fun locals count height => ?_, hrest⟩
    exact ((hcode ..).single hword.1).last.append (hcode' ..)
  | .binary hleft _ hright, h => by
    obtain ⟨hcode, hword⟩ := hleft.ascends h
    obtain ⟨hcode', hrest⟩ := hright.ascends (hword.2.mono hword.1)
    exact ⟨fun locals count height => ((hcode ..).append (hcode' ..)).append (BinaryOp.ascends ..), hrest⟩
  | .unary _ hoperand, h => by
    obtain ⟨hcode, hrest⟩ := hoperand.ascends h.tail
    exact ⟨fun locals count height => (hcode ..).last, hrest⟩
  | .bareCall hcallee _ _, h => by
    obtain ⟨hcode, hopen⟩ := hcallee.ascends h
    refine ⟨fun locals count height => ?_, hopen.2.2⟩
    exact ((hcode ..).append (ascends_empty (UInt32.le_refl _))).single hopen.tail.1
  | .call hcallee _ harguments _, h => by
    obtain ⟨hcode, hopen⟩ := hcallee.ascends h
    obtain ⟨high, hcodes, hclose⟩ := harguments.ascends (hopen.2.mono hopen.1)
    exact ⟨fun locals count height => ((hcode ..).append (hcodes ..)).single hclose.1, hclose.2⟩
  | .literal _, h => ⟨fun _ count height => Literal.ascends h.1 _ count height, h.2⟩
  | .mention _, h => by
    refine ⟨fun locals count height => ?_, h.2⟩
    rw [Expr.code, Expr.endLine]
    split
    · exact ascends_single h.1 (UInt32.le_refl _)
    · exact (ascends_name low _).single h.1
  | .group _ hinner _, h => by
    obtain ⟨hcode, hclose⟩ := hinner.ascends h.tail
    exact ⟨fun locals count height => (hcode ..).mono hclose.1, hclose.2⟩
  | .tighter _ he, h => he.ascends h

theorem Arguments.ascends {low : UInt32} {input rest : List Token} {es : List Expr} :
    Arguments input es rest → Token.Ordered low input →
    ∃ high, (∀ locals count height, (Expr.codes locals count height es).Ascends low high) ∧
      Token.Ordered high rest
  | .one he, h => by
    obtain ⟨hcode, hrest⟩ := he.ascends h
    exact ⟨_, fun locals count height => (hcode ..).append (ascends_empty (UInt32.le_refl _)), hrest⟩
  | .more he _ hes, h => by
    obtain ⟨hcode, hcomma⟩ := he.ascends h
    obtain ⟨high, hcodes, hrest⟩ := hes.ascends (hcomma.2.mono hcomma.1)
    exact ⟨high, fun locals count height => (hcode ..).append (hcodes ..), hrest⟩

end

variable {low : UInt32} {input rest : List Token}

theorem VariableDecl.ascends {v : Variable} (hv : VariableDecl input v rest) (h : Token.Ordered low input) :
    (∀ scope count, (v.code scope count).Ascends low v.line) ∧ Token.Ordered v.line rest := by
  -- The initial value of a local is all of its code; the name of a global comes before it.
  have hcode : ∀ {v : Variable} {high : UInt32},
      (∀ locals count height, (v.valueCode locals count height).Ascends low high) → high ≤ v.line →
      ∀ scope count, (v.code scope count).Ascends low v.line := by
    intro v high hvalue hle scope count
    unfold Variable.code
    split
    · exact ((ascends_name low v.name).append (hvalue ..)).single hle
    · exact (hvalue ..).mono hle
  cases hv with
  | bare => exact ⟨hcode (fun _ _ _ => ascends_single h.1 (UInt32.le_refl _)) h.2.1, h.2.2⟩
  | initial _ _ he _ =>
    obtain ⟨hvalue, hsemicolon⟩ := he.ascends h.tail.tail
    exact ⟨hcode hvalue hsemicolon.1, hsemicolon.2⟩

theorem First.ascends {i : Initializer} (hi : First input i rest) (h : Token.Ordered low input) :
    ∃ high, (∀ scope count, (i.code scope count).Ascends low high) ∧ Token.Ordered high rest := by
  cases hi with
  | empty => exact ⟨low, fun _ _ => ascends_empty (UInt32.le_refl low), h.tail⟩
  | var _ hv => exact ⟨_, hv.ascends h.tail⟩
  | expression he _ =>
    obtain ⟨hcode, hsemicolon⟩ := he.ascends h
    exact ⟨_, fun scope count => (hcode ..).single hsemicolon.1, hsemicolon.2⟩

theorem Second.ascends {condition : Option Expr} {line : UInt32} (hcondition : Second input condition line rest)
    (h : Token.Ordered low input) : (∀ locals count height size,
      (Stmt.conditionCode locals count height line size condition).Ascends low line) ∧
      Token.Ordered line rest := by
  cases hcondition with
  | empty => exact ⟨fun _ _ _ _ => ascends_empty h.1, h.2⟩
  | expression he _ =>
    obtain ⟨hcode, hsemicolon⟩ := he.ascends h
    exact ⟨fun locals count height size => ((hcode ..).single hsemicolon.1).last, hsemicolon.2⟩

theorem Third.ascends {increment : Option (Expr × UInt32)} (hincrement : Third input increment rest)
    (h : Token.Ordered low input) : ∃ high, (∀ locals count height length,
      (Stmt.incrementCode locals count height low length increment).Ascends low high) ∧
      Token.Ordered high rest := by
  cases hincrement with
  | empty => exact ⟨low, fun _ _ _ _ => ascends_empty (UInt32.le_refl low), h.tail⟩
  | expression he _ =>
    obtain ⟨hcode, hclose⟩ := he.ascends h
    have hle := UInt32.le_refl low
    exact ⟨_, fun locals count height length =>
      ((ascends_single hle hle).append (hcode ..)).last.single hclose.1, hclose.2⟩

end Grammar

/-- What holds of the code of a routine holds of its function and of those inside. -/
theorem Fragment.Ascends.function {name : Option String} {r : Routine} {low high : UInt32}
    (h : (r.code name).Ascends low high) : ∀ g ∈ (r.function name).all,
    Ascending low high g.chunk.lines.toList := by
  obtain ⟨place, parameters, body, line⟩ := r
  intro g hg
  rcases Function.mem_all.mp hg with rfl | ⟨f, hf, hg⟩
  · exact h.lines
  · exact h.functions f hf g hg

theorem Fragment.Ascends.pool {name : Option String} {r : Routine} {low high : UInt32}
    (h : (r.code name).Ascends low high) :
    (pool (.function (r.function name))).Ascends low high := by
  refine ascends_pool h.le fun f hf => ?_
  cases hf
  exact h.function

/-- A routine ends with a return on its last line. -/
theorem Routine.ascends {ds : List Decl} {low high line : UInt32}
    (h : ∀ scope count, (Decl.codes scope count ds).Ascends low high) (hle : high ≤ line) (place : Nat)
    (parameters : List String) (name : Option String) :
    ((Routine.mk place parameters ds line).code name).Ascends low line :=
  ((h ..).single hle).last

theorem Stmt.ascends_exitCode (line : UInt32) (height : Nat) (condition : Option Expr) :
    (exitCode line height condition).Ascends line line := by
  cases condition with
  | none => exact ascends_empty (UInt32.le_refl _)
  | some e => exact ascends_single (UInt32.le_refl _) (UInt32.le_refl _)

namespace Grammar

mutual

theorem Statement.ascends {low : UInt32} {input rest : List Token} {s : Stmt} : Statement input s rest →
    Token.Ordered low input → (∀ scope count, (s.code scope count).Ascends low s.endLine) ∧
      Token.Ordered s.endLine rest
  | .print _ he _, h => by
    obtain ⟨hcode, hsemicolon⟩ := he.ascends h.tail
    exact ⟨fun scope count => (hcode ..).single hsemicolon.1, hsemicolon.2⟩
  | .expression he _, h => by
    obtain ⟨hcode, hsemicolon⟩ := he.ascends h
    exact ⟨fun scope count => (hcode ..).single hsemicolon.1, hsemicolon.2⟩
  | .bareReturn _ _, h =>
    ⟨fun _ _ => (ascends_single h.tail.1 (UInt32.le_refl _)).last, h.2.2⟩
  | .ret _ he _, h => by
    obtain ⟨hcode, hsemicolon⟩ := he.ascends h.tail
    exact ⟨fun scope count => (hcode ..).single hsemicolon.1, hsemicolon.2⟩
  | .ifThen _ _ he _ hs _, h => by
    obtain ⟨hcode, hclose⟩ := he.ascends h.tail.tail
    obtain ⟨hthen, hrest⟩ := hs.ascends hclose.2
    refine ⟨fun scope count => ?_, hrest⟩
    exact (((hcode ..).single hclose.1).last.append (hthen ..)).last.last
  | .ifElse _ _ he _ hs _ ht, h => by
    obtain ⟨hcode, hclose⟩ := he.ascends h.tail.tail
    obtain ⟨hthen, hother⟩ := hs.ascends hclose.2
    obtain ⟨helse, hrest⟩ := ht.ascends (hother.2.mono hother.1)
    refine ⟨fun scope count => ?_, hrest⟩
    exact (((hcode ..).single hclose.1).last.append (hthen ..)).last.last.append (helse ..)
  | .whileLoop _ _ he _ hs, h => by
    obtain ⟨hcode, hclose⟩ := he.ascends h.tail.tail
    obtain ⟨hbody, hrest⟩ := hs.ascends hclose.2
    refine ⟨fun scope count => ?_, hrest⟩
    exact (((hcode ..).single hclose.1).last.append (hbody ..)).last.last
  | .forLoop _ _ hfirst hsecond hthird hs, h => by
    -- The clauses stand before the body in the code as they do in the text.
    obtain ⟨start, hinitializer, hordered⟩ := hfirst.ascends h.tail.tail
    obtain ⟨hcondition, hordered⟩ := hsecond.ascends hordered
    obtain ⟨close, hincrement, hordered⟩ := hthird.ascends hordered
    obtain ⟨hbody, hrest⟩ := hs.ascends hordered
    refine ⟨fun scope count => ?_, hrest⟩
    exact (((((hinitializer scope.inner count).append (hcondition ..)).append (hincrement ..)).append
        (hbody ..)).last.append
      (Stmt.ascends_exitCode ..)).pops (UInt32.le_refl _) _ _
  | .block _ hds _, h => by
    obtain ⟨high, hcodes, hclose⟩ := hds.ascends h.tail
    exact ⟨fun scope count => (hcodes ..).pops hclose.1 _ _, hclose.2⟩

theorem Declaration.ascends {low : UInt32} {input rest : List Token} {d : Decl} : Declaration input d rest →
    Token.Ordered low input → (∀ scope count, (d.code scope count).Ascends low d.endLine) ∧
      Token.Ordered d.endLine rest
  | .var _ hv, h => hv.ascends h.tail
  | .function _ _ hparameters _ hds _, h => by
    obtain ⟨high, hcodes, hclose⟩ := hds.ascends (h.tail.tail.passes hparameters.consumes.passes).tail
    refine ⟨fun scope count => ?_, hclose.2⟩
    rw [Decl.code]
    split
    · exact ((ascends_name low _).append (Routine.ascends hcodes hclose.1 ..).pool).last.last
    · exact (Routine.ascends hcodes hclose.1 ..).pool.last
  | .statement hs, h => hs.ascends h

theorem Declarations.ascends {low : UInt32} {input rest : List Token} {ds : List Decl} :
    Declarations input ds rest → Token.Ordered low input →
    ∃ high, (∀ scope count, (Decl.codes scope count ds).Ascends low high) ∧ Token.Ordered high rest
  | .none, h => ⟨low, fun _ _ => ascends_empty (UInt32.le_refl low), h⟩
  | .more hd hds, h => by
    obtain ⟨hcode, hordered⟩ := hd.ascends h
    obtain ⟨high, hcodes, hrest⟩ := hds.ascends hordered
    exact ⟨high, fun scope count => (hcode ..).append (hcodes ..), hrest⟩

end

end Grammar

/-- The lines of a script and of the functions inside it come in the order of its text, from the first
    line to the last. -/
theorem ascending_compile {source : String} (hlines : source.toList.count '\n' < UInt32.size - 1)
    {script : Function}
    (h : compile source = .ok script) : ∃ last : UInt32, last.toNat ≤ 1 + source.toList.count '\n' ∧
      ∀ f ∈ script.all, Ascending 1 last f.chunk.lines.toList := by
  obtain ⟨r, hprogram, -, rfl⟩ := (compile_iff_program source script).mp h
  obtain ⟨ds, last, hds, -, rfl⟩ := Grammar.program_iff.mp hprogram
  obtain ⟨hsorted, hwithin⟩ := Token.lines_scan hlines
  have hordered : Token.Ordered 1 (Token.scan source) :=
    .of_pairwise hsorted fun token htoken => UInt32.le_iff_toNat_le.mpr (hwithin token htoken).1
  obtain ⟨high, hcodes, hlast⟩ := hds.ascends hordered
  obtain ⟨taken, htokens, -⟩ := hds.passes
  refine ⟨last.line, (hwithin last (htokens ▸ List.mem_append_right _ (List.mem_singleton_self last))).2, ?_⟩
  exact (Routine.ascends hcodes hlast.1 _ [] none).function

/-! ### The line column -/

theorem Text.mem_padded {width n : Nat} {c : Char} (h : c ∈ (Text.padded width n).toList) :
    c = ' ' ∨ c.isDigit := by
  have hdigits : (toString n).toList = Nat.toDigits 10 n := by
    show (Nat.repr n).toList = _
    simp
  rw [Text.padded, Text.alignRight, String.toList_ofList, List.leftpad, hdigits] at h
  rcases List.mem_append.mp h with h | h
  · exact Or.inl (List.eq_of_mem_replicate h)
  · exact Or.inr (Nat.isDigit_of_mem_toDigits (by decide) (by decide) h)

theorem Text.le_length_padded (width n : Nat) : width ≤ (Text.padded width n).toList.length := by
  rw [Text.padded, Text.alignRight, String.toList_ofList, List.leftpad, List.length_append,
    List.length_replicate, Nat.sub_add_eq_max]
  exact Nat.le_max_left _ _

namespace Chunk

variable {chunk : Chunk} {offset : Nat}

/-- The line of the listing for `offset` has a bar in the column of the source line, which comes
    after the offset. -/
def ShowsBar (chunk : Chunk) (offset : Nat) : Prop :=
  ∃ text, (chunk.listAt offset).1 = Text.zeroPadded 4 offset ++ " " ++ "   | " ++ text

theorem exists_listAt (chunk : Chunk) (offset : Nat) :
    ∃ text, (chunk.listAt offset).1 = Text.zeroPadded 4 offset ++ " " ++ chunk.lineColumn offset ++ text := by
  unfold listAt
  cases Instruction.read chunk.code offset with
  | truncated op => exact ⟨_, String.append_assoc ..⟩
  | unknown byte => exact ⟨_, String.append_assoc ..⟩
  | instruction i => exact ⟨_, rfl⟩
  | pastEnd => exact ⟨_, rfl⟩

/-- A bar stands only where a number would have its last digit. -/
theorem lineColumn_bar {rest : List Char} (h : ((chunk.lineColumn offset).toList ++ rest)[3]? = some '|') :
    0 < offset ∧ chunk.line? offset = chunk.line? (offset - 1) := by
  unfold lineColumn at h
  dsimp only at h
  split at h
  · assumption
  · exfalso
    cases hline : chunk.line? offset with
    | none => simp [hline] at h
    | some line =>
      have hlength : 3 < (Text.padded 4 line.toNat).toList.length := Text.le_length_padded 4 line.toNat
      simp only [hline, String.toList_append, List.append_assoc, List.getElem?_append_left hlength] at h
      rcases Text.mem_padded (List.mem_of_getElem? h) with hblank | hdigit
      · exact absurd hblank (by decide)
      · exact absurd hdigit (by decide)

theorem showsBar_iff : chunk.ShowsBar offset ↔ 0 < offset ∧ chunk.line? offset = chunk.line? (offset - 1) := by
  obtain ⟨rest, hrest⟩ := exists_listAt chunk offset
  constructor
  · rintro ⟨text, htext⟩
    have hcolumn : (chunk.lineColumn offset).toList ++ rest.toList = "   | ".toList ++ text.toList := by
      have heq := congrArg String.toList (hrest.symm.trans htext)
      simpa only [String.toList_append, List.append_assoc, List.append_cancel_left_eq] using heq
    exact lineColumn_bar (by rw [hcolumn]; simp)
  · intro h
    exact ⟨rest, by rw [hrest, lineColumn, if_pos h]⟩

/-- The line table of a chunk with these instructions, of a text with so many line breaks. -/
structure FollowsText (chunk : Chunk) (found : Array (Nat × Instruction)) (newlines : Nat) : Prop where
  /-- There is a line for each byte, -/
  whole : chunk.lines.size = chunk.code.size
  /-- they come in order, -/
  sorted : chunk.lines.toList.Pairwise (· ≤ ·)
  /-- all of them lines of the text, -/
  within : ∀ line ∈ chunk.lines, 1 ≤ line.toNat ∧ line.toNat ≤ 1 + newlines
  /-- and the operands of an instruction are on the line of its opcode. -/
  operands : ∀ offset i, (offset, i) ∈ found → ∀ k < i.size, chunk.line? (offset + k) = chunk.line? offset
  /-- A listing has a line for each instruction, -/
  listed : chunk.listingOffsets = found.toList.map (·.1)
  /-- with a bar exactly where the instruction before is on the same line. -/
  barred : ∀ offset i, (offset, i) ∈ found → (chunk.ShowsBar offset ↔
    ∃ before j, (before, j) ∈ found ∧ before + j.size = offset ∧ chunk.line? before = chunk.line? offset)

end Chunk

/-- A line table follows the text if its lines do. -/
theorem Fragment.Makes.followsText {code : Fragment} {f : Function} (h : code.Makes f) {low high : UInt32}
    (hlines : Ascending low high f.chunk.lines.toList) {newlines : Nat} (hlow : 1 ≤ low.toNat)
    (hhigh : high.toNat ≤ 1 + newlines) : f.chunk.FollowsText (Item.row 0 code.items).toArray newlines where
  whole := by rw [h.chunk, List.size_toArray, List.size_toArray, length_lines, length_bytes]
  sorted := hlines.sorted
  within line hline := by
    obtain ⟨hge, hle⟩ := hlines.within line hline.val
    exact ⟨Nat.le_trans hlow (UInt32.le_iff_toNat_le.mp hge),
      Nat.le_trans (UInt32.le_iff_toNat_le.mp hle) hhigh⟩
  operands offset i hi k hk := by
    obtain ⟨line, hline⟩ := h.exists_line (List.mem_toArray.mp hi)
    exact (hline k hk).trans (hline 0 i.size_pos).symm
  listed := (Chunk.lists_listingOffsets f.chunk).unique h.fills.lists
  barred offset i hi := by
    -- The byte before an instruction is the last one of the instruction before it.
    have hlast : ∀ before j, (before, j) ∈ Item.row 0 code.items → before + j.size = offset →
        f.chunk.line? (offset - 1) = f.chunk.line? before := by
      rintro before j hj rfl
      obtain ⟨line, hline⟩ := h.exists_line hj
      have hpos := j.size_pos
      rw [Nat.add_sub_assoc hpos, hline _ (Nat.sub_lt hpos Nat.one_pos)]
      exact (hline 0 hpos).symm
    rw [Chunk.showsBar_iff]
    constructor
    · rintro ⟨hpos, heq⟩
      obtain ⟨before, j, hj, hbefore⟩ := h.fills.previous (List.mem_toArray.mp hi) hpos
      exact ⟨before, j, List.mem_toArray.mpr hj, hbefore, (hlast before j hj hbefore).symm.trans heq.symm⟩
    · rintro ⟨before, j, hj, hbefore, heq⟩
      have hpos : 0 < offset := hbefore ▸ Nat.lt_of_lt_of_le j.size_pos (Nat.le_add_left _ _)
      exact ⟨hpos, heq.symm.trans (hlast before j (List.mem_toArray.mp hj) hbefore).symm⟩

/-- The line table of a compiled script, and of every function inside it, follows the text: its lines
    come in the order of the text, from the first line to the last one at most, and a listing shows where
    one of them begins. -/
theorem compile_followsText {source : String} (hlines : source.toList.count '\n' < UInt32.size - 1)
    {script : Function}
    (h : compile source = .ok script) : ∀ f ∈ script.all, ∃ found, f.chunk.instructions = .ok found ∧
      f.chunk.FollowsText found (source.toList.count '\n') := by
  intro f hf
  obtain ⟨last, hlast, hall⟩ := ascending_compile hlines h
  have hcompiled : f.Compiled := ⟨source, script, h, hf⟩
  obtain ⟨code, hmakes⟩ := hcompiled.makes
  exact ⟨_, hmakes.instructions, hmakes.followsText (hall f hf) (Nat.le_refl 1) hlast⟩

/-- A function over several lines, whose operator is on another line than its right operand. -/
theorem compile_followsText_function : ∃ script,
    compile "fun f(a) \x7b\n  return a +\n    1;\n\x7d\nprint f(2);" = .ok script ∧
      script.all.map (·.chunk.lines.toList) =
        [[4, 4, 4, 4, 5, 5, 5, 5, 5, 5, 5, 5, 5], [2, 2, 3, 3, 3, 3, 4, 4]] ∧
      ∀ f ∈ script.all, ∃ found, f.chunk.instructions = .ok found ∧ f.chunk.FollowsText found 4 := by
  have hcompiles :
      ((compile "fun f(a) \x7b\n  return a +\n    1;\n\x7d\nprint f(2);").toOption.any fun script =>
      script.all.map (·.chunk.lines.toList) =
        [[4, 4, 4, 4, 5, 5, 5, 5, 5, 5, 5, 5, 5], [2, 2, 3, 3, 3, 3, 4, 4]]) = true := by decide +kernel
  obtain ⟨script, hcompile, hlines⟩ := exists_ok_of_any hcompiles
  have hcount : "fun f(a) \x7b\n  return a +\n    1;\n\x7d\nprint f(2);".toList.count '\n' = 4 := by
    decide +kernel
  have hfollows := compile_followsText (by rw [hcount]; decide) hcompile
  rw [hcount] at hfollows
  exact ⟨script, hcompile, of_decide_eq_true hlines, hfollows⟩

end Lox
