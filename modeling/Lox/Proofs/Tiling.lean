import Mathlib.Data.List.Nodup
import Mathlib.Data.List.TakeWhile
import Lox.Proofs.Lexer
import Lox.Proofs.Scan

/-! # Tilings

Scanning cuts a text into pieces with gaps between them. The gaps hold blanks, line breaks and comments; each
piece is the longest word of the language at its place, or a character with which no word begins, or a string
that is never closed. So the tokens of a text are told by the words of the language alone, which are listed
here without reference to scanning. -/

namespace Lox.Token

/-! ### The words of the language -/

/-- The kinds of operators and punctuation marks. -/
def Kind.signs : List Kind :=
  [leftParen, rightParen, leftBrace, rightBrace, comma, semicolon, minus, plus, slash, star, bang,
    bangEqual, equal, equalEqual, greater, greaterEqual, less, lessEqual]

/-- The words of each kind. -/
inductive Word : Kind → List Char → Prop
  | sign {kind : Kind} (h : kind ∈ Kind.signs) : Word kind kind.text.toList
  | keyword {kind : Kind} (h : kind ∈ Kind.keywords) : Word kind kind.text.toList
  | identifier {first : Char} {rest : List Char} (hfirst : startsWord first = true)
    (hrest : ∀ c ∈ rest, continuesWord c = true)
      (hplain : ∀ kind ∈ Kind.keywords, kind.text.toList ≠ first :: rest) :
    Word .identifier (first :: rest)
  | whole {first : Char} {digits : List Char} (hfirst : first.isDigit = true)
      (hdigits : ∀ c ∈ digits, c.isDigit = true) :
    Word .number (first :: digits)
  | decimal {first second : Char} {digits decimals : List Char} (hfirst : first.isDigit = true)
    (hdigits : ∀ c ∈ digits, c.isDigit = true) (hsecond : second.isDigit = true)
    (hdecimals : ∀ c ∈ decimals, c.isDigit = true) :
      Word .number (first :: (digits ++ '.' :: second :: decimals))
  | string {body : List Char} (hbody : '"' ∉ body) : Word .string ('"' :: (body ++ ['"']))

/-- Blanks, line breaks and comments, with `rest` after them. A comment goes up to the next line
    break or the end. -/
inductive Gap : (gap rest : List Char) → Prop
  | nil {rest : List Char} : Gap [] rest
  | blank {c : Char} {gap rest : List Char} (hblank : c ∈ [' ', '\r', '\t', '\n']) (hgap : Gap gap rest) :
    Gap (c :: gap) rest
  | comment {body gap rest : List Char} (hbody : '\n' ∉ body) (hend : ∀ c ∈ (gap ++ rest).head?, c = '\n')
    (hgap : Gap gap rest) : Gap ('/' :: '/' :: (body ++ gap)) rest

/-- A text that begins with no blank, line break or comment. -/
def Resumes (text : List Char) : Prop :=
  (∀ c ∈ text.head?, c ∉ [' ', '\r', '\t', '\n']) ∧ ¬['/', '/'] <+: text

/-- How a piece of a text, with `rest` after it, becomes a token. -/
inductive Becomes (piece rest : List Char) (token : Token) : Prop
  /-- The longest word at its place is a token. -/
  | word (hword : Word token.kind piece) (hlexeme : token.lexeme = String.ofList piece)
    (hlongest : ∀ kind other, Word kind other → other <+: piece ++ rest → other.length ≤ piece.length)
  | unexpected (c : Char) (hpiece : piece = [c]) (hnone : ∀ kind tail, ¬Word kind (c :: tail))
    (hkind : token.kind = .error) (hlexeme : token.lexeme = "Unexpected character.")
  | unterminated (body : List Char) (hpiece : piece = '"' :: body) (hbody : '"' ∉ body) (hrest : rest = [])
    (hkind : token.kind = .error) (hlexeme : token.lexeme = "Unterminated string.")

section

variable {kind : Kind} {c : Char} {text rest piece : List Char} {line : UInt32}

/-! ### How words begin -/

theorem toList_of_mem_signs (h : kind ∈ Kind.signs) :
    (∃ c ∈ marks ++ comparisons, kind.text.toList = [c]) ∨ ∃ c ∈ comparisons, kind.text.toList = [c, '='] := by
  have hall : Kind.signs.all (fun kind => (marks ++ comparisons).any (fun c => kind.text.toList == [c]) ||
      comparisons.any fun c => kind.text.toList == [c, '=']) = true := by decide
  simpa only [Bool.or_eq_true, List.any_eq_true, beq_iff_eq] using List.all_eq_true.mp hall kind h

/-- What a word is, by its first character. -/
theorem Word.cons_cases {tail : List Char} (h : Word kind (c :: tail)) :
    (startsWord c = true ∧ ∀ x ∈ tail, continuesWord x = true) ∨
    (c.isDigit = true ∧ ∀ x ∈ tail, x.isDigit = true) ∨
    (c.isDigit = true ∧ ∃ digits second decimals, (∀ x ∈ digits, x.isDigit = true) ∧ second.isDigit = true ∧
      (∀ x ∈ decimals, x.isDigit = true) ∧ tail = digits ++ '.' :: second :: decimals) ∨
    (c = '"' ∧ ∃ body, '"' ∉ body ∧ tail = body ++ ['"']) ∨
    (c ∈ marks ++ comparisons ∧ tail = []) ∨
    (c ∈ comparisons ∧ tail = ['=']) := by
  generalize htext : c :: tail = text at h
  cases h with
  | sign h =>
    rcases toList_of_mem_signs h with ⟨d, hd, heq⟩ | ⟨d, hd, heq⟩ <;> rw [heq] at htext <;> cases htext <;>
      simp [hd]
  | keyword h =>
    have hall : ∀ kind ∈ Kind.keywords, kind.text.toList.head?.all startsWord = true ∧
        kind.text.toList.tail.all continuesWord = true := by decide
    obtain ⟨hfirst, hrest⟩ := hall _ h
    rw [← htext] at hfirst hrest
    exact .inl ⟨hfirst, List.all_eq_true.mp hrest⟩
  | identifier hfirst hrest hplain =>
    cases htext
    exact .inl ⟨hfirst, hrest⟩
  | whole hfirst hdigits =>
    cases htext
    exact .inr (.inl ⟨hfirst, hdigits⟩)
  | decimal hfirst hdigits hsecond hdecimals =>
    cases htext
    exact .inr (.inr (.inl ⟨hfirst, _, _, _, hdigits, hsecond, hdecimals, rfl⟩))
  | string hbody =>
    cases htext
    exact .inr (.inr (.inr (.inl ⟨rfl, _, hbody, rfl⟩)))

theorem Word.ne_endOfInput (h : Word kind text) : kind ≠ .endOfInput := by
  have hall : ∀ kind ∈ Kind.signs ++ Kind.keywords, kind ≠ .endOfInput := by decide
  cases h with
  | sign h => exact hall kind (List.mem_append_left _ h)
  | keyword h => exact hall kind (List.mem_append_right _ h)
  | identifier | whole | decimal | string => exact Kind.noConfusion

theorem Word.ne_nil (h : Word kind text) : text ≠ [] := by
  cases h with
  | sign h =>
    rcases toList_of_mem_signs h with ⟨d, -, heq⟩ | ⟨d, -, heq⟩ <;> rw [heq] <;> exact List.cons_ne_nil _ _
  | keyword h =>
    have hall : ∀ kind ∈ Kind.keywords, kind.text.toList ≠ [] := by decide
    exact hall _ h
  | identifier | whole | decimal | string => exact List.cons_ne_nil _ _

theorem startsWord_eq_false_of_isDigit (h : c.isDigit = true) : startsWord c = false := by
  have hdigit : c.toNat ≤ 57 := by
    simp only [Char.isDigit, Bool.and_eq_true, decide_eq_true_eq] at h
    exact h.2
  apply Bool.eq_false_iff.mpr
  intro hstarts
  have halpha : c.isAlpha =
      (decide ('A'.val ≤ c.val ∧ c.val ≤ 'Z'.val) ||
        (decide ('a'.val ≤ c.val) && decide (c.val ≤ 'z'.val))) := rfl
  simp only [startsWord, halpha, Bool.or_eq_true, Bool.and_eq_true, decide_eq_true_eq, beq_iff_eq] at hstarts
  rcases hstarts with (⟨hlow, -⟩ | ⟨hlow, -⟩) | rfl
  · exact absurd (Nat.le_trans hlow hdigit) (by decide)
  · exact absurd (Nat.le_trans hlow hdigit) (by decide)
  · exact absurd h (by decide)

theorem Word.tail_of_startsWord {tail : List Char} (h : Word kind (c :: tail)) (hc : startsWord c = true) :
    ∀ x ∈ tail, continuesWord x = true := by
  have hsign (hmem : c ∈ '"' :: (marks ++ comparisons)) : False := by
    rw [(not_class_of_mem hmem).1] at hc
    cases hc
  rcases h.cons_cases with ⟨-, htail⟩ | ⟨hdigit, -⟩ | ⟨hdigit, -⟩ | ⟨rfl, -⟩ | ⟨hmem, -⟩ | ⟨hmem, -⟩
  · exact htail
  · exact absurd hc (by simp [startsWord_eq_false_of_isDigit hdigit])
  · exact absurd hc (by simp [startsWord_eq_false_of_isDigit hdigit])
  · exact (hsign List.mem_cons_self).elim
  · exact (hsign (List.mem_cons_of_mem _ hmem)).elim
  · exact (hsign (by simp [hmem])).elim

theorem Word.tail_of_isDigit {tail : List Char} (h : Word kind (c :: tail)) (hc : c.isDigit = true) :
    (∀ x ∈ tail, x.isDigit = true) ∨ ∃ digits second decimals, (∀ x ∈ digits, x.isDigit = true) ∧
      second.isDigit = true ∧
      (∀ x ∈ decimals, x.isDigit = true) ∧ tail = digits ++ '.' :: second :: decimals := by
  have hsign (hmem : c ∈ '"' :: (marks ++ comparisons)) : False := by
    rw [(not_class_of_mem hmem).2] at hc
    cases hc
  rcases h.cons_cases with ⟨hword, -⟩ | ⟨-, htail⟩ | ⟨-, htail⟩ | ⟨rfl, -⟩ | ⟨hmem, -⟩ | ⟨hmem, -⟩
  · exact absurd hword (by simp [startsWord_eq_false_of_isDigit hc])
  · exact .inl htail
  · exact .inr htail
  · exact (hsign List.mem_cons_self).elim
  · exact (hsign (List.mem_cons_of_mem _ hmem)).elim
  · exact (hsign (by simp [hmem])).elim

theorem Word.tail_of_mem {tail : List Char} (h : Word kind (c :: tail)) (hc : c ∈ marks ++ comparisons) :
    tail = [] ∨ c ∈ comparisons ∧ tail = ['='] := by
  obtain ⟨hword, hdigit⟩ := not_class_of_mem (List.mem_cons_of_mem _ hc)
  rcases h.cons_cases with ⟨hc', -⟩ | ⟨hc', -⟩ | ⟨hc', -⟩ | ⟨rfl, -⟩ | ⟨-, htail⟩ | htail
  · simp [hword] at hc'
  · simp [hdigit] at hc'
  · simp [hdigit] at hc'
  · exact absurd hc (by decide)
  · exact .inl htail
  · exact .inr htail

theorem Word.tail_of_quote {tail : List Char} (h : Word kind ('"' :: tail)) :
    ∃ body, '"' ∉ body ∧ tail = body ++ ['"'] := by
  rcases h.cons_cases with ⟨hc, -⟩ | ⟨hc, -⟩ | ⟨hc, -⟩ | ⟨-, hbody⟩ | ⟨hc, -⟩ | ⟨hc, -⟩
  · exact absurd hc (by decide)
  · exact absurd hc (by decide)
  · exact absurd hc (by decide)
  · exact hbody
  · exact absurd hc (by decide)
  · exact absurd hc (by decide)

/-! ### The kind of a word -/

/-- The kinds of which each has a single word. -/
def Kind.fixed : List Kind := signs ++ keywords

/-- The kind of any other word, told by its first character. -/
def Kind.ofFirst (first : Char) : Kind :=
  if startsWord first then .identifier else if first.isDigit then .number else .string

theorem Kind.nodup_texts : (fixed.map (·.text.toList)).Nodup := by decide +kernel

theorem Word.fixed_or {tail : List Char} (h : Word kind (c :: tail)) :
    (kind ∈ Kind.fixed ∧ kind.text.toList = c :: tail) ∨
    (kind = Kind.ofFirst c ∧ ∀ other ∈ Kind.fixed, other.text.toList ≠ c :: tail) := by
  have hsigns : ∀ other ∈ Kind.signs, other.text.toList.head?.all startsWord = false := by decide +kernel
  have hfixed : ∀ other ∈ Kind.fixed, other.text.toList.head?.all (fun d => d.isDigit || d == '"') = false := by
    decide +kernel
  have hother (hc : (c.isDigit || c == '"') = true) : ∀ other ∈ Kind.fixed, other.text.toList ≠ c :: tail := by
    intro other hmem heq
    have hhead := hfixed other hmem
    rw [heq, List.head?_cons, Option.all_some, hc] at hhead
    cases hhead
  generalize htext : c :: tail = text at h hother ⊢
  cases h with
  | sign h => exact .inl ⟨List.mem_append_left _ h, rfl⟩
  | keyword h => exact .inl ⟨List.mem_append_right _ h, rfl⟩
  | identifier hfirst _ hplain =>
    cases htext
    refine .inr ⟨(if_pos hfirst).symm, fun other hmem heq => ?_⟩
    rcases List.mem_append.mp hmem with hmem | hmem
    · have hhead := hsigns other hmem
      rw [heq, List.head?_cons, Option.all_some, hfirst] at hhead
      cases hhead
    · exact hplain other hmem heq
  | whole hfirst | decimal hfirst =>
    cases htext
    exact .inr ⟨by simp [Kind.ofFirst, startsWord_eq_false_of_isDigit hfirst, hfirst],
      hother (by simp [hfirst])⟩
  | string =>
    cases htext
    exact .inr ⟨rfl, hother rfl⟩

/-- A word is of one kind. -/
theorem Word.kind_unique {kind' : Kind} (h : Word kind text) (h' : Word kind' text) : kind = kind' := by
  cases text with
  | nil => exact absurd rfl h.ne_nil
  | cons c tail =>
    rcases h.fixed_or with ⟨hmem, heq⟩ | ⟨hkind, hnone⟩ <;> rcases h'.fixed_or with ⟨hmem', heq'⟩ |
      ⟨hkind', hnone'⟩
    · exact List.inj_on_of_nodup_map Kind.nodup_texts hmem hmem' (heq.trans heq'.symm)
    · exact absurd heq (hnone' kind hmem)
    · exact absurd heq' (hnone kind' hmem')
    · exact hkind.trans hkind'.symm

/-! ### Pieces -/

/-- The longest word is found by comparing what follows the first character. -/
theorem Becomes.of_tail {first : Char} {tail : List Char} {token : Token}
    (hword : Word token.kind (first :: tail)) (hlexeme : token.lexeme = String.ofList (first :: tail))
    (hlongest : ∀ kind other, Word kind (first :: other) → other <+: tail ++ rest →
      other.length ≤ tail.length) :
    Becomes (first :: tail) rest token := by
  refine .word hword hlexeme fun kind other hother hbegins => ?_
  cases other with
  | nil => exact absurd rfl hother.ne_nil
  | cons d other =>
    obtain ⟨rfl, hafter⟩ := List.cons_prefix_cons.mp hbegins
    exact Nat.succ_le_succ (hlongest kind other hother hafter)

theorem length_le_takeWhile {p : Char → Bool} {other : List Char} (hbegins : other <+: text)
    (hall : ∀ x ∈ other, p x = true) :
    other.length ≤ (text.takeWhile p).length := by
  induction other generalizing text with
  | nil => exact Nat.zero_le _
  | cons c other ih =>
    obtain ⟨rest, rfl⟩ := hbegins
    rw [List.cons_append, List.takeWhile_cons_of_pos (hall c List.mem_cons_self)]
    exact Nat.succ_le_succ (ih (List.prefix_append _ _) fun x hx => hall x (List.mem_cons_of_mem _ hx))

theorem word_ofWord {first : Char} {tail : List Char} (hfirst : startsWord first = true)
    (htail : ∀ c ∈ tail, continuesWord c = true) :
    Word (Kind.ofWord (String.ofList (first :: tail))) (first :: tail) := by
  unfold Kind.ofWord
  cases hfound : Kind.keywords.find? fun kind => kind.text == String.ofList (first :: tail) with
  | some kind =>
    have htext : kind.text = String.ofList (first :: tail) := by simpa using List.find?_some hfound
    have hword := Word.keyword (List.mem_of_find?_eq_some hfound)
    rw [htext, String.toList_ofList] at hword
    exact hword
  | none =>
    refine .identifier hfirst htail fun kind hkind heq => ?_
    have hne := List.find?_eq_none.mp hfound kind hkind
    rw [← heq] at hne
    simp at hne

/-- A text is cut after a piece that becomes a token. -/
def Cuts (line : UInt32) (text : List Char) (x : Token × List Char) : Prop :=
  ∃ piece, text = piece ++ x.2 ∧ Becomes piece x.2 x.1 ∧ x.1.line = line + UInt32.ofNat (piece.count '\n')

/-- A piece without a line break leaves the line as it was. -/
theorem cuts_of_becomes {token : Token} (hbecomes : Becomes piece rest token) (hbreak : '\n' ∉ piece) :
    Cuts token.line (piece ++ rest) (token, rest) := by
  refine ⟨piece, rfl, hbecomes, ?_⟩
  rw [List.count_eq_zero.mpr hbreak]
  exact (UInt32.add_zero _).symm

theorem cuts_word {first : Char} (hfirst : startsWord first = true) :
    Cuts line (first :: rest) (⟨Kind.ofWord (String.ofList (first :: rest.takeWhile continuesWord)),
      String.ofList (first :: rest.takeWhile continuesWord), line⟩, rest.dropWhile continuesWord) := by
  have htail : ∀ x ∈ rest.takeWhile continuesWord, continuesWord x = true :=
    fun x hx => List.mem_takeWhile_imp hx
  have hbreak : '\n' ∉ first :: rest.takeWhile continuesWord := by
    intro hmem
    rcases List.mem_cons.mp hmem with rfl | hmem
    · exact absurd hfirst (by decide)
    · exact absurd (htail _ hmem) (by decide)
  have hbecomes : Becomes (first :: rest.takeWhile continuesWord) (rest.dropWhile continuesWord)
      ⟨Kind.ofWord (String.ofList (first :: rest.takeWhile continuesWord)),
        String.ofList (first :: rest.takeWhile continuesWord), line⟩ := by
    refine .of_tail (word_ofWord hfirst htail) rfl fun kind other hother hbegins => ?_
    rw [List.takeWhile_append_dropWhile] at hbegins
    exact length_le_takeWhile hbegins (hother.tail_of_startsWord hfirst)
  have hcuts := cuts_of_becomes hbecomes hbreak
  rwa [List.cons_append, List.takeWhile_append_dropWhile] at hcuts

/-- A fraction is taken if a digit follows the point. -/
theorem splitFraction_cases (text : List Char) :
    (∃ second rest, second.isDigit = true ∧ text = '.' :: second :: rest ∧
      splitFraction text = ('.' :: second :: rest.takeWhile Char.isDigit, rest.dropWhile Char.isDigit)) ∨
    (∀ second rest, second.isDigit = true → text ≠ '.' :: second :: rest) ∧
      splitFraction text = ([], text) := by
  unfold splitFraction
  split
  · rename_i second rest
    by_cases hsecond : second.isDigit = true
    · left
      refine ⟨second, rest, hsecond, rfl, ?_⟩
      rw [if_pos hsecond, List.span_eq_takeWhile_dropWhile]
      simp [hsecond]
    · right
      refine ⟨?_, if_neg hsecond⟩
      rintro _ _ hdigit ⟨⟩
      exact hsecond hdigit
  · rename_i hne
    right
    refine ⟨?_, rfl⟩
    rintro second rest - rfl
    exact hne second rest rfl

theorem takeWhile_isDigit_append {digits : List Char} (hdigits : ∀ x ∈ digits, x.isDigit = true)
    (rest : List Char) :
    (digits ++ '.' :: rest).takeWhile Char.isDigit = digits ∧
      (digits ++ '.' :: rest).dropWhile Char.isDigit = '.' :: rest := by
  rw [List.takeWhile_append_of_pos hdigits, List.dropWhile_append_of_pos hdigits]
  simp [Char.isDigit]

theorem cuts_number {first : Char} (hfirst : first.isDigit = true) :
    Cuts line (first :: rest) (⟨.number, String.ofList (first :: (rest.takeWhile Char.isDigit ++
      (splitFraction (rest.dropWhile Char.isDigit)).1)), line⟩,
      (splitFraction (rest.dropWhile Char.isDigit)).2) := by
  have hdigits : ∀ x ∈ rest.takeWhile Char.isDigit, x.isDigit = true := fun x hx => List.mem_takeWhile_imp hx
  have hbreak : '\n' ∉ first :: rest.takeWhile Char.isDigit := by
    intro hmem
    rcases List.mem_cons.mp hmem with rfl | hmem
    · exact absurd hfirst (by decide)
    · exact absurd (hdigits _ hmem) (by decide)
  -- What is a number with a fraction begins with all the digits that there are.
  have hfraction {digits decimals : List Char} {second : Char} (hall : ∀ x ∈ digits, x.isDigit = true)
      (hbegins : digits ++ '.' :: second :: decimals <+: rest) : rest.takeWhile Char.isDigit = digits ∧
        ∃ more, rest.dropWhile Char.isDigit = '.' :: second :: (decimals ++ more) := by
    obtain ⟨more, rfl⟩ := hbegins
    obtain ⟨htake, hdrop⟩ := takeWhile_isDigit_append hall (second :: decimals ++ more)
    rw [List.append_assoc]
    exact ⟨htake, more, hdrop⟩
  rcases splitFraction_cases (rest.dropWhile Char.isDigit) with ⟨second, after, hsecond, hrest, hsplit⟩ |
    ⟨hnone, hsplit⟩
  · have hdecimals : ∀ x ∈ after.takeWhile Char.isDigit, x.isDigit = true :=
      fun x hx => List.mem_takeWhile_imp hx
    have heq : rest.takeWhile Char.isDigit ++ '.' :: second :: after.takeWhile Char.isDigit ++
        after.dropWhile Char.isDigit = rest := by
      rw [List.append_assoc, List.cons_append, List.cons_append, List.takeWhile_append_dropWhile, ← hrest,
        List.takeWhile_append_dropWhile]
    have hbecomes :
        Becomes (first :: (rest.takeWhile Char.isDigit ++ '.' :: second :: after.takeWhile Char.isDigit))
        (after.dropWhile Char.isDigit) ⟨.number, String.ofList (first :: (rest.takeWhile Char.isDigit ++
          '.' :: second :: after.takeWhile Char.isDigit)), line⟩ := by
      refine .of_tail (.decimal hfirst hdigits hsecond hdecimals) rfl fun kind other hother hbegins => ?_
      rw [heq] at hbegins
      rcases hother.tail_of_isDigit hfirst with hall | ⟨digits, second', decimals, hall, -, hall', rfl⟩
      · have hle := length_le_takeWhile hbegins hall
        rw [List.length_append]
        omega
      · obtain ⟨htake, more, hdrop⟩ := hfraction hall hbegins
        rw [hrest] at hdrop
        cases hdrop
        have hle := length_le_takeWhile (List.prefix_append decimals more) hall'
        simp only [htake, List.length_append, List.length_cons]
        omega
    have hbreak' :
        '\n' ∉ first :: (rest.takeWhile Char.isDigit ++ '.' :: second :: after.takeWhile Char.isDigit) := by
      have hsecond' : '\n' ≠ second := by
        rintro rfl
        exact absurd hsecond (by decide)
      have hafter : '\n' ∉ after.takeWhile Char.isDigit := fun hmem => absurd (hdecimals _ hmem) (by decide)
      simp only [List.mem_cons, not_or] at hbreak
      simp [hbreak, hsecond', hafter]
    have hcuts := cuts_of_becomes hbecomes hbreak'
    rw [List.cons_append, heq] at hcuts
    rwa [hsplit]
  · have hbecomes : Becomes (first :: rest.takeWhile Char.isDigit) (rest.dropWhile Char.isDigit)
        ⟨.number, String.ofList (first :: rest.takeWhile Char.isDigit), line⟩ := by
      refine .of_tail (.whole hfirst hdigits) rfl fun kind other hother hbegins => ?_
      rw [List.takeWhile_append_dropWhile] at hbegins
      rcases hother.tail_of_isDigit hfirst with hall | ⟨digits, second, decimals, hall, hsecond, -, rfl⟩
      · exact length_le_takeWhile hbegins hall
      · obtain ⟨-, more, hdrop⟩ := hfraction hall hbegins
        exact absurd hdrop (hnone second _ hsecond)
    have hcuts := cuts_of_becomes hbecomes hbreak
    rw [List.cons_append, List.takeWhile_append_dropWhile] at hcuts
    rwa [hsplit, List.append_nil]

theorem cuts_mark (hkind : kind ∈ Kind.signs) (htext : kind.text.toList = [c])
    (hshort : c ∈ marks ∨ c ∈ comparisons ∧ ∀ d ∈ rest.head?, d ≠ '=') :
    Cuts line (c :: rest) (⟨kind, String.singleton c, line⟩, rest) := by
  have hc : c ∈ marks ++ comparisons := by
    rcases hshort with h | ⟨h, -⟩ <;> simp [h]
  have hbecomes : Becomes [c] rest ⟨kind, String.singleton c, line⟩ := by
    refine .of_tail (htext ▸ Word.sign hkind) rfl fun kind other hother hbegins => ?_
    rcases hother.tail_of_mem hc with rfl | ⟨hcomparison, rfl⟩
    · exact Nat.le_refl _
    · rcases hshort with hmark | ⟨-, hnone⟩
      · have hdisjoint : marks.all (fun c => !comparisons.contains c) = true := by decide
        exact absurd hcomparison (by simpa using List.all_eq_true.mp hdisjoint c hmark)
      · obtain ⟨more, rfl⟩ := hbegins
        exact absurd rfl (hnone '=' rfl)
  have hbreak : '\n' ∉ [c] := by
    intro hmem
    rw [← List.mem_singleton.mp hmem] at hc
    exact absurd hc (by decide)
  exact cuts_of_becomes hbecomes hbreak

theorem cuts_comparison (hkind : kind ∈ Kind.signs) (htext : kind.text.toList = [c, '='])
    (hc : c ∈ comparisons) :
    Cuts line (c :: '=' :: rest) (⟨kind, String.ofList [c, '='], line⟩, rest) := by
  have hbecomes : Becomes [c, '='] rest ⟨kind, String.ofList [c, '='], line⟩ := by
    refine .of_tail (htext ▸ Word.sign hkind) rfl fun kind other hother _ => ?_
    rcases hother.tail_of_mem (List.mem_append_right _ hc) with rfl | ⟨-, rfl⟩
    · exact Nat.zero_le _
    · exact Nat.le_refl _
  have hbreak : '\n' ∉ [c, '='] := by
    intro hmem
    rcases List.mem_cons.mp hmem with rfl | hmem
    · exact absurd hc (by decide)
    · exact absurd hmem (by decide)
  exact cuts_of_becomes hbecomes hbreak

/-- A string that is closed is the only word that begins with its quote. -/
theorem cuts_string {body : List Char} (hbody : '"' ∉ body) (line : UInt32) (rest : List Char) :
    Cuts line ('"' :: (body ++ '"' :: rest))
    (⟨.string, String.ofList ('"' :: (body ++ ['"'])), line + UInt32.ofNat (body.count '\n')⟩, rest) := by
  refine ⟨'"' :: (body ++ ['"']), by simp, ?_, by simp⟩
  refine .of_tail (.string hbody) rfl fun kind other hother hbegins => ?_
  obtain ⟨body', hbody', rfl⟩ := hother.tail_of_quote
  have hall : ∀ x ∈ body', (x != '"') = true := by
    intro x hx
    simp only [bne_iff_ne]
    rintro rfl
    exact hbody' hx
  have hle := length_le_takeWhile ((List.prefix_append body' ['"']).trans hbegins) hall
  have htake : (body ++ ['"'] ++ rest).takeWhile (· != '"') = body := by
    rw [List.append_assoc, List.takeWhile_append_of_pos]
    · simp
    · intro x hx
      simp only [bne_iff_ne]
      rintro rfl
      exact hbody hx
  rw [htake] at hle
  simpa using hle

theorem cuts_unterminated {body : List Char} (hbody : '"' ∉ body) : Cuts line ('"' :: body)
    (⟨.error, "Unterminated string.", line + UInt32.ofNat (body.count '\n')⟩, []) :=
  ⟨'"' :: body, by simp, .unterminated body rfl hbody rfl rfl rfl, by simp⟩

theorem cuts_unexpected (hword : startsWord c = false) (hdigit : c.isDigit = false)
    (hsign : c ∉ '"' :: (marks ++ comparisons)) (hbreak : c ≠ '\n') :
    Cuts line (c :: rest) (⟨.error, "Unexpected character.", line⟩, rest) := by
  refine cuts_of_becomes (.unexpected c rfl (fun kind tail h => ?_) rfl rfl) (by simpa using hbreak.symm)
  simp only [List.mem_cons, List.mem_append, not_or] at hsign
  obtain ⟨hquote, hmark, hcomparison⟩ := hsign
  rcases h.cons_cases with ⟨hc, -⟩ | ⟨hc, -⟩ | ⟨hc, -⟩ | ⟨hc, -⟩ | ⟨hc, -⟩ | ⟨hc, -⟩
  · simp [hword] at hc
  · simp [hdigit] at hc
  · simp [hdigit] at hc
  · exact hquote hc
  · simp [hmark, hcomparison] at hc
  · exact hcomparison hc

theorem cuts_quote : Cuts line ('"' :: rest)
    (match rest.dropWhile (· != '"') with
    | [] => (⟨.error, "Unterminated string.", line + UInt32.ofNat ((rest.takeWhile (· != '"')).count '\n')⟩, [])
    | _ :: after => (⟨.string, String.ofList ('"' :: (rest.takeWhile (· != '"') ++ ['"'])),
        line + UInt32.ofNat ((rest.takeWhile (· != '"')).count '\n')⟩, after)) := by
  have hbody : '"' ∉ rest.takeWhile (· != '"') := fun hmem => absurd (List.mem_takeWhile_imp hmem) (by decide)
  have heq := List.takeWhile_append_dropWhile (p := (· != '"')) (l := rest)
  cases hafter : rest.dropWhile (· != '"') with
  | nil =>
    rw [hafter, List.append_nil] at heq
    rw [heq] at hbody ⊢
    exact cuts_unterminated hbody
  | cons q after =>
    have hq : q = '"' := by
      have hhead := List.head?_dropWhile_not (· != '"') rest
      rw [hafter] at hhead
      simpa using hhead
    rw [hafter, hq] at heq
    have hcuts := cuts_string hbody line after
    rwa [heq] at hcuts

theorem cuts_scanFrom (line : UInt32) (first : Char) (rest : List Char) (hbreak : first ≠ '\n') :
    Cuts line (first :: rest) (scanFrom line first rest) := by
  unfold scanFrom
  extract_lets single withEqual
  have hsingle (kind : Kind) (hkind : kind ∈ Kind.signs) (htext : kind.text.toList = [first])
      (hfirst : first ∈ marks) :
      Cuts line (first :: rest) (single kind) := cuts_mark hkind htext (.inl hfirst)
  have hwithEqual (short long : Kind) (hshort : short ∈ Kind.signs) (hshort' : short.text.toList = [first])
      (hlong : long ∈ Kind.signs) (hlong' : long.text.toList = [first, '=']) (hfirst : first ∈ comparisons) :
      Cuts line (first :: rest) (withEqual short long) := by
    unfold withEqual
    split
    · exact cuts_comparison hlong hlong' hfirst
    · rename_i hne
      refine cuts_mark hshort hshort' (.inr ⟨hfirst, ?_⟩)
      rintro d hd rfl
      obtain ⟨after, rfl⟩ := List.head?_eq_some_iff.mp hd
      exact hne after rfl
  by_cases hword : startsWord first = true
  · rw [if_pos hword, List.span_eq_takeWhile_dropWhile]
    exact cuts_word hword
  · by_cases hdigit : first.isDigit = true
    · rw [if_neg hword, if_pos hdigit, List.span_eq_takeWhile_dropWhile]
      exact cuts_number hdigit
    · rw [if_neg hword, if_neg hdigit]
      simp only [List.span_eq_takeWhile_dropWhile]
      split
      case h_15 => exact cuts_quote
      case h_16 =>
        refine cuts_unexpected (Bool.eq_false_iff.mpr hword) (Bool.eq_false_iff.mpr hdigit) ?_ hbreak
        simp only [marks, comparisons, List.mem_cons, List.mem_append, List.not_mem_nil, or_false, not_or]
        refine ⟨?_, ⟨?_, ?_, ?_, ?_, ?_, ?_, ?_, ?_, ?_, ?_⟩, ?_, ?_, ?_, ?_⟩ <;> assumption
      all_goals first
        | exact hsingle _ (by decide) (by decide) (by decide)
        | exact hwithEqual _ _ (by decide) (by decide) (by decide) (by decide) (by decide)

/-! ### Gaps -/

/-- What is passed over up to the next token: within a comment the rest of it, and then a gap. -/
def Passes (inComment : Bool) (line : UInt32) (text : List Char) (x : UInt32 × List Char) : Prop :=
  ∃ body gap, text = body ++ (gap ++ x.2) ∧ '\n' ∉ body ∧ (inComment = false → body = []) ∧
    (inComment = true → ∀ c ∈ (gap ++ x.2).head?, c = '\n') ∧ Gap gap x.2 ∧ Resumes x.2 ∧
    x.1 = line + UInt32.ofNat (gap.count '\n')

theorem passes_skipGap (inComment : Bool) (line : UInt32) (text : List Char) :
    Passes inComment line text (skipGap inComment line text) := by
  fun_induction skipGap inComment line text with
  | case1 inComment line =>
    exact ⟨[], [], rfl, List.not_mem_nil, fun _ => rfl,
      fun _ c hc => by simp at hc, .nil, ⟨by simp, by simp⟩, by simp⟩
  | case2 inComment line rest ih =>
    obtain ⟨body, gap, heq, -, hbody, -, hgap, hresumes, hline⟩ := ih
    rw [hbody rfl, List.nil_append] at heq
    refine ⟨[], '\n' :: gap, congrArg ('\n' :: ·) heq, List.not_mem_nil, fun _ => rfl, ?_,
      .blank (by simp) hgap, hresumes, ?_⟩
    · intro _ c hc
      simpa using hc.symm
    · rw [hline, List.count_cons_self, Nat.add_comm, UInt32.ofNat_add]
      exact UInt32.add_assoc _ _ _
  | case3 line c rest hbreak ih =>
    obtain ⟨body, gap, heq, hbody, -, hend, hgap, hresumes, hline⟩ := ih
    refine ⟨c :: body, gap, congrArg (c :: ·) heq, ?_, fun h => Bool.noConfusion h, hend, hgap, hresumes, hline⟩
    simp only [List.mem_cons, not_or]
    exact ⟨Ne.symm hbreak, hbody⟩
  | case4 inComment line c rest hbreak hcomment hblank ih =>
    obtain ⟨body, gap, heq, -, hbody, -, hgap, hresumes, hline⟩ := ih
    rw [hbody rfl, List.nil_append] at heq
    refine ⟨[], c :: gap, congrArg (c :: ·) heq, List.not_mem_nil, fun _ => rfl, fun h => absurd h hcomment,
      ?_, hresumes, ?_⟩
    · exact .blank (by rcases hblank with rfl | rfl | rfl <;> simp) hgap
    · rw [hline, List.count_cons_of_ne hbreak]
  | case5 inComment line c rest hbreak hcomment hblank hslash ih =>
    obtain ⟨body, gap, heq, hbody, -, hend, hgap, hresumes, hline⟩ := ih
    obtain ⟨rfl, hhead⟩ := hslash
    -- The second slash is not a line break, so it is in the comment.
    cases body with
    | nil =>
      rw [List.nil_append] at heq
      exact absurd (hend rfl '/' (heq ▸ hhead)) (by decide)
    | cons d body =>
      rw [heq, List.cons_append, List.head?_cons] at hhead
      cases hhead
      refine ⟨[], '/' :: '/' :: (body ++ gap), ?_, List.not_mem_nil, fun _ => rfl,
        fun h => absurd h hcomment, ?_, hresumes, ?_⟩
      · rw [← List.append_assoc] at heq
        exact congrArg ('/' :: ·) heq
      · exact .comment (fun hmem => hbody (List.mem_cons_of_mem _ hmem)) (hend rfl) hgap
      · have hcount : (body ++ gap).count '\n' = gap.count '\n' := by
          rw [List.count_append, List.count_eq_zero.mpr fun hmem => hbody (List.mem_cons_of_mem _ hmem),
            Nat.zero_add]
        rw [hline, List.count_cons_of_ne (by decide), List.count_cons_of_ne (by decide), hcount]
  | case6 inComment line c rest hbreak hcomment hblank hslash =>
    refine ⟨[], [], rfl, List.not_mem_nil, fun _ => rfl, fun h => absurd h hcomment, .nil, ⟨?_, ?_⟩, by simp⟩
    · intro d hd
      cases hd
      simp only [not_or] at hblank
      simp [hblank, hbreak]
    · rintro ⟨more, hmore⟩
      cases hmore
      exact hslash ⟨rfl, rfl⟩

end

/-! ### Tilings -/

/-- A token with its piece of the text and the gap before that. -/
structure Tile where
  gap : List Char
  piece : List Char
  token : Token

def Tile.text (tile : Tile) : List Char := tile.gap ++ tile.piece

/-- A tile that lies rightly in a text which goes on with `rest`. -/
structure Tile.Fits (tile : Tile) (rest : List Char) : Prop where
  gap : Gap tile.gap (tile.piece ++ rest)
  resumes : Resumes (tile.piece ++ rest)
  piece : Becomes tile.piece rest tile.token

/-- A text that is covered by tiles and a last gap, where lines are counted from `line`. -/
structure Covers (line : UInt32) (text : List Char) (tiles : List Tile) (last : List Char) : Prop where
  eq : text = tiles.flatMap Tile.text ++ last
  gap : Gap last []
  fits : ∀ before tile after, tiles = before ++ tile :: after → tile.Fits (after.flatMap Tile.text ++ last) ∧
    tile.token.line = line + UInt32.ofNat ((before.flatMap Tile.text ++ tile.text).count '\n')

theorem line_append (line : UInt32) (a b : List Char) :
    line + UInt32.ofNat (a.count '\n') + UInt32.ofNat (b.count '\n') =
    line + UInt32.ofNat ((a ++ b).count '\n') := by
  rw [List.count_append, UInt32.ofNat_add, UInt32.add_assoc]

theorem Covers.nil {line : UInt32} {last : List Char} (h : Gap last []) : Covers line last [] last :=
  ⟨rfl, h, fun before tile after heq => by simp at heq⟩

theorem Covers.cons {line : UInt32} {rest last : List Char} {tile : Tile} {tiles : List Tile}
    (hcovers : Covers tile.token.line rest tiles last) (hfits : tile.Fits rest)
    (hline : tile.token.line = line + UInt32.ofNat (tile.text.count '\n')) :
    Covers line (tile.text ++ rest) (tile :: tiles) last where
  eq := by rw [hcovers.eq, List.flatMap_cons, List.append_assoc]
  gap := hcovers.gap
  fits before other after heq := by
    cases before with
    | nil =>
      cases heq
      rw [← hcovers.eq]
      exact ⟨hfits, hline⟩
    | cons first before =>
      cases heq
      obtain ⟨hother, hothers⟩ := hcovers.fits before other after rfl
      refine ⟨hother, ?_⟩
      rw [hothers, hline, line_append, List.flatMap_cons, List.append_assoc]

/-- The next token of a text with its piece, or the end of the input after a last gap. -/
theorem next_cases (line : UInt32) (text : List Char) :
    (next line text = (⟨.endOfInput, "", line + UInt32.ofNat (text.count '\n')⟩, []) ∧ Gap text []) ∨
    ∃ (tile : Tile) (rest : List Char), next line text = (tile.token, rest) ∧ text = tile.text ++ rest ∧
      tile.Fits rest ∧ tile.token.line = line + UInt32.ofNat (tile.text.count '\n') := by
  obtain ⟨body, gap, heq, -, hbody, -, hgap, hresumes, hline⟩ := passes_skipGap false line text
  rw [hbody rfl, List.nil_append] at heq
  unfold next
  generalize skipGap false line text = x at heq hgap hresumes hline
  obtain ⟨line', after⟩ := x
  dsimp only at heq hgap hresumes hline
  cases after with
  | nil =>
    left
    rw [List.append_nil] at heq
    rw [heq, ← hline]
    exact ⟨rfl, hgap⟩
  | cons first rest =>
    right
    have hbreak : first ≠ '\n' := by
      rintro rfl
      exact hresumes.1 '\n' rfl (by simp)
    obtain ⟨piece, hpiece, hbecomes, hline'⟩ := cuts_scanFrom line' first rest hbreak
    refine ⟨⟨gap, piece, (scanFrom line' first rest).1⟩, (scanFrom line' first rest).2, rfl, ?_, ?_, ?_⟩
    · rw [heq, hpiece, Tile.text, List.append_assoc]
    · rw [hpiece] at hgap hresumes
      exact ⟨hgap, hresumes, hbecomes⟩
    · rw [hline', hline, line_append]
      rfl

theorem Becomes.kind_ne {piece rest : List Char} {token : Token} (h : Becomes piece rest token) :
    token.kind ≠ .endOfInput := by
  cases h with
  | word hword => exact hword.ne_endOfInput
  | unexpected c _ _ hkind =>
    rw [hkind]
    exact Kind.noConfusion
  | unterminated body _ _ _ hkind =>
    rw [hkind]
    exact Kind.noConfusion

/-- The tokens that are found cover the text, and the end of the input follows them. -/
theorem covers_scanUpTo (count : Nat) (line : UInt32) (text : List Char) (found : Array Token)
    (h : text.length < count) :
    ∃ tiles last, Covers line text tiles last ∧ (scanUpTo count line text found).toList = found.toList ++
      (tiles.map Tile.token ++ [⟨.endOfInput, "", line + UInt32.ofNat (text.count '\n')⟩]) := by
  induction count generalizing line text found with
  | zero => exact absurd h (Nat.not_lt_zero _)
  | succ count ih =>
    rcases next_cases line text with ⟨hnext, hgap⟩ | ⟨tile, rest, hnext, heq, hfits, hline⟩
    · refine ⟨[], text, .nil hgap, ?_⟩
      rw [scanUpTo, hnext]
      simp
    · have hkind := hfits.piece.kind_ne
      have hlength := (next_spec line text).resolve_left (by rw [hnext]; exact hkind)
      rw [hnext] at hlength
      obtain ⟨tiles, last, hcovers, htokens⟩ := ih tile.token.line rest (found.push tile.token)
        (Nat.lt_of_lt_of_le hlength.2 (Nat.le_of_lt_succ h))
      refine ⟨tile :: tiles, last, ?_, ?_⟩
      · rw [heq]
        exact hcovers.cons hfits hline
      · rw [scanUpTo, hnext]
        dsimp only
        rw [if_neg hkind, htokens, hline, line_append, heq]
        simp

theorem toNat_line_add {line : UInt32} {count : Nat} (h : line.toNat + count < UInt32.size) :
    (line + UInt32.ofNat count).toNat = line.toNat + count := by
  have hsize : UInt32.size = 4294967296 := rfl
  rw [UInt32.toNat_add, UInt32.toNat_ofNat']
  omega

/-- The tokens that are found come in the order of their lines, which are lines of the text. -/
theorem lines_scanUpTo (count : Nat) (line : UInt32) (text : List Char) (found : Array Token)
    (h : text.length < count) (hlines : line.toNat + text.count '\n' < UInt32.size) :
    ∃ tokens, (scanUpTo count line text found).toList = found.toList ++ tokens ∧
      tokens.Pairwise (·.line ≤ ·.line) ∧
      ∀ token ∈ tokens, line.toNat ≤ token.line.toNat ∧ token.line.toNat ≤ line.toNat + text.count '\n' := by
  induction count generalizing line text found with
  | zero => exact absurd h (Nat.not_lt_zero _)
  | succ count ih =>
    rcases next_cases line text with ⟨hnext, -⟩ | ⟨tile, rest, hnext, heq, hfits, hline⟩
    · refine ⟨[⟨.endOfInput, "", line + UInt32.ofNat (text.count '\n')⟩], ?_, List.pairwise_singleton _ _, ?_⟩
      · rw [scanUpTo, hnext]
        simp
      · refine List.forall_mem_singleton.mpr ⟨?_, ?_⟩ <;> rw [toNat_line_add hlines]
        exact Nat.le_add_right _ _
    · have hkind := hfits.piece.kind_ne
      have hlength := (next_spec line text).resolve_left (by rw [hnext]; exact hkind)
      rw [hnext] at hlength
      have hcount : text.count '\n' = tile.text.count '\n' + rest.count '\n' := by rw [heq, List.count_append]
      have htile : tile.token.line.toNat = line.toNat + tile.text.count '\n' := by
        rw [hline, toNat_line_add (by omega)]
      obtain ⟨tokens, hfound, hsorted, hwithin⟩ := ih tile.token.line rest (found.push tile.token)
        (Nat.lt_of_lt_of_le hlength.2 (Nat.le_of_lt_succ h)) (by omega)
      refine ⟨tile.token :: tokens, ?_, List.pairwise_cons.mpr ⟨fun token htoken => ?_, hsorted⟩, ?_⟩
      · rw [scanUpTo, hnext]
        dsimp only
        rw [if_neg hkind, hfound]
        simp
      · exact UInt32.le_iff_toNat_le.mpr (hwithin token htoken).1
      · refine List.forall_mem_cons.mpr ⟨by omega, fun token htoken => ?_⟩
        have hbounds := hwithin token htoken
        omega

/-- The tokens of a text come in the order of their lines, from 1 up to one more than the
    text has line breaks. -/
theorem lines_scan {source : String} (hlines : source.toList.count '\n' < UInt32.size - 1) :
    (scan source).Pairwise (·.line ≤ ·.line) ∧
      ∀ token ∈ scan source, 1 ≤ token.line.toNat ∧ token.line.toNat ≤ 1 + source.toList.count '\n' := by
  have hsize : UInt32.size = 4294967296 := rfl
  obtain ⟨tokens, hfound, hsorted, hwithin⟩ := lines_scanUpTo (source.length + 1) 1 source.toList #[]
    (by rw [String.length_toList]; exact Nat.lt_succ_self _) (by rw [UInt32.toNat_one]; omega)
  rw [scan, hfound]
  exact ⟨hsorted, hwithin⟩

theorem toNat_line {count : Nat} (h : count < UInt32.size - 1) :
    (1 + UInt32.ofNat count).toNat = 1 + count := by
  have hsize : UInt32.size = 4294967296 := rfl
  rw [UInt32.toNat_add, UInt32.toNat_ofNat', UInt32.toNat_one]
  omega

/-- The tokens of a text are found by scanning its bytes, whose slices are cut between characters, and they
    cover it. It is cut into pieces with gaps before, between and after them; the gaps hold blanks, line
    breaks and comments and are as long as can be. A piece is the longest word at its place and the lexeme of
    its token, or it is an error: one character with which no word begins, or a string that is not closed, up
    to the end. The end of the input comes last, and every token has the line on which its piece ends. -/
theorem scan_covers (source : String) (hlines : source.toList.count '\n' < UInt32.size - 1) :
    Lexer.tokens? source = some (scan source) ∧ ∃ (tiles : List Tile) (last : List Char) (finish : Token),
      source.toList = tiles.flatMap Tile.text ++ last ∧ Gap last [] ∧
      scan source = tiles.map Tile.token ++ [finish] ∧
      finish.kind = .endOfInput ∧ finish.lexeme = "" ∧ finish.line.toNat = 1 + source.toList.count '\n' ∧
      ∀ before tile after, tiles = before ++ tile :: after →
        tile.Fits (after.flatMap Tile.text ++ last) ∧
        tile.token.line.toNat = 1 + (before.flatMap Tile.text ++ tile.text).count '\n' := by
  obtain ⟨tiles, last, hcovers, htokens⟩ := covers_scanUpTo (source.length + 1) 1 source.toList #[] (by
    rw [String.length_toList]
    exact Nat.lt_succ_self _)
  refine ⟨Lexer.tokens?_eq source, tiles, last, _, hcovers.eq, hcovers.gap, htokens, rfl, rfl,
    toNat_line hlines, ?_⟩
  intro before tile after heq
  obtain ⟨hfits, hline⟩ := hcovers.fits before tile after heq
  have hsource : source.toList = before.flatMap Tile.text ++ tile.text ++
      (after.flatMap Tile.text ++ last) := by
    rw [hcovers.eq, heq]
    simp
  have hle : (before.flatMap Tile.text ++ tile.text).count '\n' ≤ source.toList.count '\n' := by
    rw [hsource]
    exact (List.sublist_append_left _ _).count_le _
  refine ⟨hfits, ?_⟩
  rw [hline]
  exact toNat_line (Nat.lt_of_le_of_lt hle hlines)

/-- A text with a keyword, a character of two bytes, a point that belongs to no number, a string over two
lines and a comment. -/
theorem scan_covers_mixed : ∃ (tiles : List Tile) (last : List Char) (finish : Token),
    "var é = 1.5.\n\"a\nb\"// c".toList = tiles.flatMap Tile.text ++ last ∧ Gap last [] ∧
    Lexer.tokens? "var é = 1.5.\n\"a\nb\"// c" = some (tiles.map Tile.token ++ [finish]) ∧
    tiles.map Tile.token ++ [finish] = [⟨.varWord, "var", 1⟩, ⟨.error, "Unexpected character.", 1⟩,
      ⟨.equal, "=", 1⟩, ⟨.number, "1.5", 1⟩, ⟨.error, "Unexpected character.", 1⟩,
      ⟨.string, "\"a\nb\"", 3⟩, ⟨.endOfInput, "", 3⟩] ∧
    ∀ before tile after, tiles = before ++ tile :: after → tile.Fits (after.flatMap Tile.text ++ last) := by
  obtain ⟨hbytes, tiles, last, finish, heq, hgap, hscan, -, -, -, hfits⟩ :=
    scan_covers "var é = 1.5.\n\"a\nb\"// c" (by decide +kernel)
  refine ⟨tiles, last, finish, heq, hgap, hbytes.trans (congrArg some hscan), ?_, fun before tile after h => ?_⟩
  · rw [← hscan]
    decide +kernel
  · exact (hfits before tile after h).1

end Lox.Token
