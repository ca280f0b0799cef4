import Mathlib.Logic.Equiv.Basic
import Lox.Proofs.Renaming.Code
import Lox.Proofs.Sequence.Scan
import Lox.Proofs.Tiling
import Lox.Proofs.Unambiguity

/-! # Renaming

The compiler hands on no text of a name but those of globals and of functions. So if the identifiers of a
text are renamed, no two of them alike, it compiles to the same script with these names renamed, or is
refused at the same lines. The names of locals and parameters leave no trace in a script, and its literals
stay as they are. -/

namespace Lox

/-! ### Identifiers -/

namespace Token

/-- Whether a text is an identifier. -/
def isIdentifier : List Char → Bool
  | [] => false
  | first :: rest =>
    startsWord first && rest.all continuesWord && Kind.keywords.all fun kind =>
      kind.text.toList != first :: rest

variable {kind : Kind} {text : List Char}

/-- What an identifier is. -/
theorem Word.identifier_cases (h : Word .identifier text) : ∃ first rest, text = first :: rest ∧
    startsWord first = true ∧
    (∀ c ∈ rest, continuesWord c = true) ∧ ∀ kind ∈ Kind.keywords, kind.text.toList ≠ text := by
  generalize hkind : Kind.identifier = kind at h
  cases h with
  | sign h | keyword h =>
    rw [← hkind] at h
    exact absurd h (by decide)
  | identifier hfirst hrest hplain => exact ⟨_, _, rfl, hfirst, hrest, hplain⟩
  | whole | decimal | string => cases hkind

theorem isIdentifier_iff : isIdentifier text = true ↔ Word .identifier text := by
  constructor
  · intro h
    cases text with
    | nil => cases h
    | cons first rest =>
      simp only [isIdentifier, Bool.and_eq_true, List.all_eq_true, bne_iff_ne] at h
      exact .identifier h.1.1 h.1.2 h.2
  · intro h
    obtain ⟨first, rest, rfl, hfirst, hrest, hplain⟩ := h.identifier_cases
    simp only [isIdentifier, Bool.and_eq_true, List.all_eq_true, bne_iff_ne]
    exact ⟨⟨hfirst, hrest⟩, hplain⟩

instance : Decidable (Word .identifier text) := decidable_of_iff _ isIdentifier_iff

theorem next_identifier_iff (line : UInt32) (text : List Char) :
    Word .identifier (next line text).1.lexeme.toList ↔ (next line text).1.kind = .identifier := by
  rcases next_cases line text with ⟨hnext, -⟩ | ⟨tile, rest, hnext, -, hfits, -⟩ <;> rw [hnext] <;> dsimp only
  · exact iff_of_false (by decide) (by decide)
  · cases hfits.piece with
    | word hword hlexeme =>
      rw [hlexeme, String.toList_ofList]
      exact ⟨hword.kind_unique, fun hkind => hkind ▸ hword⟩
    | unexpected _ _ _ hkind hlexeme | unterminated _ _ _ _ hkind hlexeme =>
      rw [hkind, hlexeme]
      exact iff_of_false (by decide) (by decide)

theorem Scans.identifier_iff {line : UInt32} {tokens : List Token} (h : Scans line text tokens) :
    ∀ token ∈ tokens, Word .identifier token.lexeme.toList ↔ token.kind = .identifier := by
  induction h with
  | @done line text _ _ hnext _ =>
    have hfirst := next_identifier_iff line text
    rw [hnext] at hfirst
    exact List.forall_mem_singleton.mpr hfirst
  | @more line text _ _ _ hnext _ _ ih =>
    have hfirst := next_identifier_iff line text
    rw [hnext] at hfirst
    exact List.forall_mem_cons.mpr ⟨hfirst, ih⟩

end Token

/-- An identifier of the language: no keyword, nor any other word. -/
abbrev Identifier := { text : String // Token.Word .identifier text.toList }

/-- A renaming of identifiers that keeps different ones apart. -/
structure Renaming where
  map : Identifier → Identifier
  injective : ∀ {x y : Identifier}, map x = map y → x = y

namespace Renaming

variable (r : Renaming)

/-- A text with its identifier renamed, if it is one. -/
def word (text : String) : String :=
  if h : Token.Word .identifier text.toList then r.map ⟨text, h⟩ else text

theorem word_injective {x y : String} (h : r.word x = r.word y) : x = y := by
  unfold word at h
  split at h <;> split at h <;> rename_i hx hy
  · exact congrArg Subtype.val (r.injective (Subtype.ext h))
  · exact absurd (h ▸ (r.map ⟨x, hx⟩).property) hy
  · exact absurd (h ▸ (r.map ⟨y, hy⟩).property) hx
  · exact h

theorem word_empty : r.word "" = "" := dif_neg (by decide)

/-- Exchanges two identifiers. -/
def exchange (x y : Identifier) : Renaming := ⟨Equiv.swap x y, fun h => (Equiv.swap x y).injective h⟩

/-- Texts that differ in their identifiers. -/
def variation : Variation where
  line := Eq
  word := r.word
  constant _ _ := True

/-- A diagnostic with the names in it renamed; its line is the same. -/
def diagnostic (d : Diagnostic) : Diagnostic :=
  { d with place := r.variation.place d.place, cause := r.variation.cause d.cause }

theorem lawful : r.variation.Lawful where
  line_unread := rfl
  injective := r.word_injective
  empty := r.word_empty
  number _ := trivial
  string _ := trivial
  name _ := trivial
  function _ := trivial

variable {r}

theorem onToken_respell {token : Token} (h : Token.Word .identifier token.lexeme.toList ↔
      token.kind = .identifier) :
    r.variation.OnToken token (token.respell r.word) := by
  have hfixed : token.kind ≠ .identifier → r.word token.lexeme = token.lexeme :=
    fun hkind => dif_neg (mt h.mp hkind)
  refine ⟨rfl, ?_, rfl, hfixed⟩
  by_cases hkind : token.kind = .identifier
  · exact Token.lexeme_respell r.word hkind
  · rw [Token.respell_of_ne r.word hkind]
    exact (hfixed hkind).symm

theorem diagnostics_eq {as bs : List Diagnostic} (h : List.Forall₂ r.variation.OnDiagnostic as bs) :
    bs = as.map r.diagnostic := by
  induction h with
  | nil => rfl
  | @cons a b _ _ hab _ ih =>
    obtain ⟨line, place, cause⟩ := b
    obtain ⟨hline, hplace, hcause⟩ := hab
    dsimp only at hline hplace hcause
    rw [List.map_cons, ← ih, diagnostic, ← hplace, ← hcause]
    cases hline
    rfl

end Renaming

/-! ### Names in functions -/

/-- The names of globals in a chunk. -/
def Chunk.globals (chunk : Chunk) : List String :=
  chunk.constants.zipIdx.filterMap fun entry => if chunk.isName entry.2 then entry.1.string? else none

/-- The names of globals and of functions in a function and the functions inside it. -/
def Function.names (f : Function) : List String := f.all.flatMap fun g => g.name.toList ++ g.chunk.globals

/-- The instructions of a chunk that load constants do not load any that is the name of a global. -/
def Chunk.LoadsNoName (chunk : Chunk) : Prop := ∃ found, chunk.instructions = .ok found ∧
  ∀ place index, (place, Instruction.constant index) ∈ found → chunk.isName index.toNat = false

theorem Function.mem_names {f : Function} {name : String} : name ∈ f.names ↔ ∃ g ∈ f.all, g.name = some name ∨
    ∃ index, g.chunk.isName index = true ∧ g.chunk.constants[index]? = some (.string name) := by
  have hglobals (chunk : Chunk) : name ∈ chunk.globals ↔
      ∃ index, chunk.isName index = true ∧ chunk.constants[index]? = some (.string name) := by
    simp only [Chunk.globals, List.mem_filterMap, Prod.exists, List.mem_zipIdx_iff_getElem?]
    constructor
    · rintro ⟨constant, index, hconstant, hname⟩
      split at hname <;> rename_i his
      · cases constant <;> cases hname
        exact ⟨index, his, hconstant⟩
      · cases hname
    · rintro ⟨index, his, hconstant⟩
      exact ⟨_, index, hconstant, by rw [if_pos his, Constant.string?]⟩
  simp only [Function.names, List.mem_flatMap, List.mem_append, Option.mem_toList, hglobals]

section

variable {word : String → String}

mutual

/-- If all names in it stay the same, so does a function. -/
theorem Function.respell_eq_self : ∀ f : Function, (∀ name ∈ f.names, word name = name) → f.respell word = f
  | ⟨arity, ⟨code, lines, constants⟩, name⟩, h => by
    have hown : name.map word = name := by
      cases name with
      | none => rfl
      | some name =>
        exact congrArg some (h name (Function.mem_names.mpr ⟨_, Function.mem_all_self _, .inl rfl⟩))
    have hconstants := Constant.respellFrom_eq_self (Chunk.isName ⟨code, lines, constants⟩) constants 0
      (fun k text hconstant his =>
        h text (Function.mem_names.mpr ⟨_, Function.mem_all_self _, .inr ⟨k, Nat.zero_add k ▸ his, hconstant⟩⟩))
      fun g hg name hname => by
        obtain ⟨inner, hinner, hnames⟩ := Function.mem_names.mp hname
        exact h name (Function.mem_names.mpr ⟨inner, Function.mem_all.mpr (.inr ⟨g, hg, hinner⟩), hnames⟩)
    rw [Function.respell, Chunk.respell, hown, hconstants]

theorem Constant.respellFrom_eq_self (isName : Nat → Bool) : ∀ (constants : List Constant) (index : Nat),
    (∀ k text, constants[k]? = some (.string text) → isName (index + k) = true → word text = text) →
    (∀ f, .function f ∈ constants → ∀ name ∈ f.names, word name = name) →
    Constant.respellFrom word isName index constants = constants
  | [], _, _, _ => rfl
  | constant :: constants, index, htexts, hfunctions => by
    have hfirst := constant.respell_eq_self (isName index)
      (fun text heq his => htexts 0 text (by rw [heq]; rfl) his)
      fun f heq => hfunctions f (heq ▸ List.mem_cons_self)
    have hrest := Constant.respellFrom_eq_self isName constants (index + 1)
      (fun k text hconstant his => htexts (k + 1) text hconstant (by rwa [← Nat.add_assoc, Nat.add_right_comm]))
      fun f hf => hfunctions f (List.mem_cons_of_mem _ hf)
    rw [Constant.respellFrom, hfirst, hrest]

theorem Constant.respell_eq_self (isName : Bool) : ∀ constant : Constant,
    (∀ text, constant = .string text → isName = true → word text = text) →
    (∀ f, constant = .function f → ∀ name ∈ f.names, word name = name) → constant.respell word isName = constant
  | .string text, htext, _ => by
    rw [Constant.respell]
    split <;> rename_i his
    · rw [htext text rfl his]
    · rfl
  | .function f, _, hfunction => by
    rw [Constant.respell, f.respell_eq_self (hfunction f rfl)]
  | .nil, _, _ | .bool _, _, _ | .number _, _, _ | .native _, _, _ => rfl

end

end

/-! ### Renamed texts -/

/-- In compiled code, no constant is both loaded and taken for the name of a global. -/
theorem Function.Compiled.loadsNoName {f : Function} (h : f.Compiled) : f.chunk.LoadsNoName := by
  obtain ⟨name, r, hlegal, rfl⟩ := h.written
  obtain ⟨names, hnames⟩ : Fragment.Respells id 0 (r.code name) _ := r.respells id rfl hlegal
  have hmakes := hlegal.makes_code
  have hfound := Chunk.instructions_eq_ok.mpr hmakes.fills
  exact ⟨_, hfound, fun place index hload => hnames.isName_loaded hmakes hfound hload⟩

/-- The script of a text with other names. -/
theorem compile_respelled {word : String → String} (hword : ∀ {x y : String}, word x = word y → x = y)
    (hempty : word "" = "")
    {source other : String} (h : Token.scan other = (Token.scan source).map (Token.respell word))
    {f g : Function} (hf : compile source = .ok f) (hg : compile other = .ok g) : g = f.respell word := by
  obtain ⟨r, hr, hallowed, rfl⟩ := (compile_iff_program source f).mp hf
  obtain ⟨r', hr', -, rfl⟩ := (compile_iff_program other g).mp hg
  rw [h] at hr'
  have hlegal : r.Legal none := by
    obtain ⟨ds, last, -, -, rfl⟩ := Grammar.program_iff.mp hr
    exact ⟨hallowed, fun _ => rfl⟩
  -- The renamed tree derives the renamed tokens, and no other tree does.
  rw [hr'.unique (hr.respell word)]
  exact (r.respells hword hempty hlegal).function hlegal

/-- Two texts whose tokens differ in nothing but renamed identifiers: both compile, to scripts that differ in
    nothing but renamed functions and globals, while constants that are loaded as values stay as they are; if
    those functions and globals keep their names, both scripts are the same, whatever locals and parameters
    are called. Or both are refused, at the same lines and for the same reasons. -/
theorem compile_renamed (r : Renaming) {source other : String}
    (h : Token.scan other = (Token.scan source).map (Token.respell r.word)) :
    (∃ f, compile source = .ok f ∧ compile other = .ok (f.respell r.word) ∧ (∀ g ∈ f.all, g.chunk.LoadsNoName) ∧
      ((∀ name ∈ f.names, r.word name = name) → compile other = compile source)) ∨
    ∃ as bs, compile source = .error as ∧ compile other = .error bs ∧
      bs.map Diagnostic.line = as.map Diagnostic.line ∧ bs = as.map r.diagnostic := by
  have htokens : List.Forall₂ r.variation.OnToken (Token.scan source) (Token.scan other) := by
    rw [h, List.forall₂_map_right_iff]
    exact List.forall₂_same.mpr fun token htoken =>
      Renaming.onToken_respell ((Token.scans_scan source).identifier_iff token htoken)
  -- Lockstep tells that both texts compile or both are refused, and why; what they compile to is
  -- told by their trees.
  rcases r.lawful.compile_cases htokens with ⟨f, g, hf, hg, -⟩ | ⟨as, bs, has, hbs, hdiagnostics⟩
  · obtain rfl := compile_respelled r.word_injective r.word_empty h hf hg
    refine .inl ⟨f, hf, hg, fun g hinside => Function.Compiled.loadsNoName ⟨source, f, hf, hinside⟩,
      fun hnames => ?_⟩
    rw [hg, hf, f.respell_eq_self hnames]
  · have hrenamed := Renaming.diagnostics_eq hdiagnostics
    refine .inr ⟨as, bs, has, hbs, ?_, hrenamed⟩
    rw [hrenamed, List.map_map]
    rfl

/-- A global and a parameter exchange their names. Then just the parameter gets another name. -/
theorem compile_renamed_exchanged :
    (∃ f, compile "fun f(b) { return b; } f(a + \"b\");" = .ok f ∧ f.names = ["f", "f", "a", "f"] ∧
      compile "fun f(a) { return a; } f(b + \"b\");" =
        .ok (f.respell (Renaming.exchange ⟨"a", by decide⟩ ⟨"b", by decide⟩).word)) ∧
    compile "fun f(c) { return c; } f(a + \"b\");" = compile "fun f(b) { return b; } f(a + \"b\");" := by
  have hcompiles : ((compile "fun f(b) { return b; } f(a + \"b\");").toOption.any
      fun f => f.names = ["f", "f", "a", "f"]) = true := by decide +kernel
  have hglobal : Token.scan "fun f(a) { return a; } f(b + \"b\");" =
      (Token.scan "fun f(b) { return b; } f(a + \"b\");").map
        (Token.respell (Renaming.exchange ⟨"a", by decide⟩ ⟨"b", by decide⟩).word) := by decide +kernel
  have hlocal : Token.scan "fun f(c) { return c; } f(a + \"b\");" =
      (Token.scan "fun f(b) { return b; } f(a + \"b\");").map
        (Token.respell (Renaming.exchange ⟨"b", by decide⟩ ⟨"c", by decide⟩).word) := by decide +kernel
  have hkept : ∀ name ∈ ["f", "f", "a", "f"],
      (Renaming.exchange ⟨"b", by decide⟩ ⟨"c", by decide⟩).word name = name := by
    decide +kernel
  obtain ⟨script, hcompile, hnames⟩ := exists_ok_of_any hcompiles
  have hnames := of_decide_eq_true hnames
  constructor
  · rcases compile_renamed _ hglobal with ⟨f, hf, hother, -, -⟩ | ⟨as, bs, has, -, -, -⟩
    · cases hcompile.symm.trans hf
      exact ⟨script, hcompile, hnames, hother⟩
    · cases hcompile.symm.trans has
  · rcases compile_renamed _ hlocal with ⟨f, hf, -, -, hsame⟩ | ⟨as, bs, has, -, -, -⟩
    · cases hcompile.symm.trans hf
      exact hsame (hnames ▸ hkept)
    · cases hcompile.symm.trans has

end Lox
