import Lox.Proofs.Compilation.Spacing
import Lox.Proofs.Sequence.Scan
import Lox.Proofs.Tiling

/-! # Joining words

A word of the language with a blank or a line break behind it is found again by scanning, whatever comes
then. No longer word begins at its place: only strings have blanks in them, and a string ends with the
first quote behind the one with which it begins. So words that are joined with blanks between them scan
back to themselves. -/

namespace Lox.Token

variable {kind kind' : Kind} {c : Char} {text tail rest gap other : List Char} {line : UInt32}

/-! ### Words with a blank behind them -/

/-- Blanks and line breaks. -/
def blanks : List Char := [' ', '\r', '\t', '\n']

/-- A text that is at its end or goes on with a blank. -/
def Parted (rest : List Char) : Prop := ∀ c ∈ rest.head?, c ∈ blanks

/-- The characters of words other than strings. -/
def plain (x : Char) : Bool :=
  startsWord x || continuesWord x || x.isDigit || x == '.' || (marks ++ comparisons).contains x

theorem not_blank_of_plain (h : plain c = true) : c ∉ blanks := by
  intro hmem
  have hblanks : blanks.all (fun blank => !plain blank) = true := by decide
  have hnot := List.all_eq_true.mp hblanks c hmem
  rw [h] at hnot
  cases hnot

theorem Word.quote_or_plain (h : Word kind (c :: tail)) : c = '"' ∨ ∀ x ∈ c :: tail, plain x = true := by
  have hdigit {x : Char} (hx : x.isDigit = true) : plain x = true := by simp [plain, hx]
  have hsign {x : Char} (hx : x ∈ marks ++ comparisons) : plain x = true := by
    rw [plain, List.contains_iff_mem.mpr hx, Bool.or_true]
  rcases h.cons_cases with ⟨hc, hall⟩ | ⟨hc, hall⟩ |
    ⟨hc, digits, second, decimals, hall, hsecond, hall', rfl⟩ | ⟨hc, -⟩ |
    ⟨hc, rfl⟩ | ⟨hc, rfl⟩
  · exact .inr (List.forall_mem_cons.mpr ⟨by simp [plain, hc], fun x hx => by simp [plain, hall x hx]⟩)
  · exact .inr (List.forall_mem_cons.mpr ⟨hdigit hc, fun x hx => hdigit (hall x hx)⟩)
  · refine .inr (List.forall_mem_cons.mpr ⟨hdigit hc,
      List.forall_mem_append.mpr ⟨fun x hx => hdigit (hall x hx), ?_⟩⟩)
    exact List.forall_mem_cons.mpr ⟨rfl,
      List.forall_mem_cons.mpr ⟨hdigit hsecond, fun x hx => hdigit (hall' x hx)⟩⟩
  · exact .inl hc
  · exact .inr (List.forall_mem_singleton.mpr (hsign hc))
  · exact .inr (List.forall_mem_cons.mpr ⟨hsign (List.mem_append_right _ hc),
      List.forall_mem_singleton.mpr rfl⟩)

/-- Only strings have blanks in them. -/
theorem Word.eq_quote (h : Word kind (c :: tail)) {blank : Char} (hblank : blank ∈ blanks)
    (hmem : blank ∈ c :: tail) :
    c = '"' :=
  h.quote_or_plain.resolve_right fun hplain => not_blank_of_plain (hplain blank hmem) hblank

/-- No longer word begins at the place of a word with a blank behind it. -/
theorem Word.longest (h : Word kind text) (hrest : Parted rest) (hother : Word kind' other)
    (hbegins : other <+: text ++ rest) :
    other.length ≤ text.length := by
  by_contra hlong
  obtain ⟨more, rfl⟩ : text <+: other :=
    List.prefix_of_prefix_length_le (List.prefix_append text rest) hbegins (Nat.le_of_not_le hlong)
  obtain ⟨after, rfl⟩ := (List.prefix_append_right_inj text).mp hbegins
  cases more with
  | nil => simp at hlong
  | cons blank more =>
    have hblank : blank ∈ blanks := hrest blank rfl
    cases text with
    | nil => exact h.ne_nil rfl
    | cons c tail =>
      obtain rfl : c = '"' := hother.eq_quote hblank (by simp)
      obtain ⟨body, -, rfl⟩ := h.tail_of_quote
      obtain ⟨body', hbody', heq⟩ := hother.tail_of_quote
      -- The quote at the end of the shorter string would be inside the longer one.
      rcases List.prefix_concat_iff.mp ⟨blank :: more, heq⟩ with hsame | hwithin
      · rw [hsame] at heq
        exact absurd (List.append_right_eq_self.mp heq) (List.cons_ne_nil _ _)
      · exact hbody' (hwithin.subset (by simp))

theorem Word.resumes (h : Word kind text) (hrest : Parted rest) : Resumes (text ++ rest) := by
  cases text with
  | nil => exact absurd rfl h.ne_nil
  | cons c tail =>
    constructor
    · rintro _ ⟨⟩ hblank
      obtain rfl := h.eq_quote hblank List.mem_cons_self
      exact absurd hblank (by decide)
    · rintro hslashes
      obtain ⟨rfl, hslash⟩ := List.cons_prefix_cons.mp hslashes
      rcases h.tail_of_mem (by decide) with rfl | ⟨hc, -⟩
      · obtain ⟨more, rfl⟩ := hslash
        exact absurd (hrest '/' rfl) (by decide)
      · exact absurd hc (by decide)

theorem Gap.eq_nil (h : Gap gap rest) (hresumes : Resumes (gap ++ rest)) : gap = [] := by
  cases h with
  | nil => rfl
  | blank hblank => exact absurd hblank (hresumes.1 _ rfl)
  | comment => exact absurd ⟨_, rfl⟩ hresumes.2

/-- A word with a blank behind it is the next token. -/
theorem next_word (h : Word kind text) (hrest : Parted rest) (line : UInt32) :
    ∃ token, next line (text ++ rest) = (token, rest) ∧ token.word = (kind, String.ofList text) := by
  have hresumes := h.resumes hrest
  rcases next_cases line (text ++ rest) with ⟨-, hgap⟩ | ⟨⟨gap, piece, token⟩, after, hnext, heq, hfits, -⟩
  · have hempty := hgap.eq_nil (by rwa [List.append_nil])
    exact absurd (List.append_eq_nil_iff.mp hempty).1 h.ne_nil
  · rw [heq, Tile.text, List.append_assoc] at hresumes
    obtain rfl : gap = [] := hfits.gap.eq_nil hresumes
    rw [Tile.text, List.nil_append] at heq
    cases hfits.piece with
    | word hword hlexeme hlongest =>
      have hle := h.longest hrest hword ⟨after, heq.symm⟩
      have hge := hlongest kind text h ⟨rest, heq⟩
      obtain ⟨rfl, rfl⟩ := List.append_inj heq (Nat.le_antisymm hge hle)
      exact ⟨token, hnext, Prod.ext (hword.kind_unique h) hlexeme⟩
    | unexpected c hpiece hnone =>
      cases text with
      | nil => exact absurd rfl h.ne_nil
      | cons d tail =>
        rw [hpiece] at heq
        cases heq
        exact absurd h (hnone kind tail)
    | unterminated body hpiece hbody hend =>
      cases text with
      | nil => exact absurd rfl h.ne_nil
      | cons d tail =>
        rw [hpiece, hend, List.append_nil] at heq
        cases heq
        obtain ⟨inner, -, rfl⟩ := h.tail_of_quote
        exact absurd (by simp) hbody

theorem next_blank (hblank : c ∈ blanks) (line : UInt32) (text : List Char) :
    ∃ line', next line (c :: text) = next line' text := by
  have hgap : ∃ line', skipGap false line (c :: text) = skipGap false line' text := by
    simp only [blanks, List.mem_cons, List.not_mem_nil, or_false] at hblank
    rcases hblank with rfl | rfl | rfl | rfl
    · exact ⟨line, rfl⟩
    · exact ⟨line, rfl⟩
    · exact ⟨line, rfl⟩
    · exact ⟨line + 1, rfl⟩
  obtain ⟨line', hgap⟩ := hgap
  exact ⟨line', by rw [next, next, hgap]⟩

/-! ### Joined words -/

theorem Scans.blank (hblank : c ∈ blanks) {words : List (Kind × String)}
    (h : ∀ line, ∃ tokens, Scans line text tokens ∧ tokens.map word = words) (line : UInt32) :
    ∃ tokens, Scans line (c :: text) tokens ∧ tokens.map word = words := by
  obtain ⟨line', hnext⟩ := next_blank hblank line text
  obtain ⟨tokens, hscans, hwords⟩ := h line'
  refine ⟨tokens, ?_, hwords⟩
  cases hscans with
  | done hfirst hend => exact .done (hnext.trans hfirst) hend
  | more hfirst hkind hrest => exact .more (hnext.trans hfirst) hkind hrest

/-- Words that are joined with blanks between them are scanned to tokens of the same words. -/
theorem scans_intercalate (hblank : c ∈ blanks) {words : List Token}
    (h : ∀ w ∈ words, Word w.kind w.lexeme.toList)
    (line : UInt32) : ∃ tokens, Scans line ([c].intercalate (words.map (·.lexeme.toList))) tokens ∧
      tokens.map word = words.map word ++ [(.endOfInput, "")] := by
  induction words generalizing line with
  | nil => exact ⟨[⟨.endOfInput, "", line⟩], .done rfl rfl, rfl⟩
  | cons w words ih =>
    obtain ⟨hw, hwords⟩ := List.forall_mem_cons.mp h
    -- Behind the first word comes nothing, or a blank with the other words after it.
    have hrest : ∃ rest, Parted rest ∧ [c].intercalate ((w :: words).map (·.lexeme.toList)) =
        w.lexeme.toList ++ rest ∧
        ∀ line, ∃ tokens, Scans line rest tokens ∧ tokens.map word = words.map word ++ [(.endOfInput, "")] := by
      cases words with
      | nil => exact ⟨[], fun _ hnone => (Option.not_mem_none _ hnone).elim, by simp, ih hwords⟩
      | cons w' words =>
        refine ⟨c :: [c].intercalate ((w' :: words).map (·.lexeme.toList)), ?_, ?_,
          Scans.blank hblank (ih hwords)⟩
        · rintro _ ⟨⟩
          exact hblank
        · simp
    obtain ⟨rest, hparted, heq, hscans⟩ := hrest
    obtain ⟨token, hnext, hword⟩ := next_word hw hparted line
    obtain ⟨tokens, htokens, hmap⟩ := hscans token.line
    rw [heq]
    refine ⟨token :: tokens, .more hnext ?_ htokens, ?_⟩
    · rw [show token.kind = w.kind from congrArg Prod.fst hword]
      exact hw.ne_endOfInput
    · rw [List.map_cons, hmap, hword, String.ofList_toList]
      rfl

/-- The tokens of a text without lexical errors are words, up to the end of the input. -/
theorem Scans.words {tokens : List Token} (h : Scans line text tokens)
    (herror : ∀ token ∈ tokens, token.kind ≠ .error) :
    ∃ words last, tokens = words ++ [last] ∧ last.word = (.endOfInput, "") ∧
      ∀ w ∈ words, Word w.kind w.lexeme.toList := by
  induction h with
  | @done line text _ token hnext hend =>
    refine ⟨[], token, rfl, ?_, fun _ hw => absurd hw List.not_mem_nil⟩
    rcases next_cases line text with ⟨hfirst, -⟩ | ⟨tile, rest, hfirst, -, hfits, -⟩ <;>
      cases hfirst.symm.trans hnext
    · rfl
    · exact absurd hend hfits.piece.kind_ne
  | @more line text _ token tokens hnext hkind _ ih =>
    obtain ⟨hfirst, hrest⟩ := List.forall_mem_cons.mp herror
    obtain ⟨words, last, rfl, hlast, hwords⟩ := ih hrest
    refine ⟨token :: words, last, rfl, hlast, List.forall_mem_cons.mpr ⟨?_, hwords⟩⟩
    rcases next_cases line text with ⟨hfound, -⟩ | ⟨tile, rest, hfound, -, hfits, -⟩ <;>
      cases hfound.symm.trans hnext
    · exact absurd rfl hkind
    · cases hfits.piece with
      | word hword hlexeme =>
        rwa [hlexeme, String.toList_ofList]
      | unexpected _ _ _ herror' | unterminated _ _ _ _ herror' => exact absurd herror' hfirst

/-- The lexemes of a text without lexical errors, joined with blanks or with line breaks, scan to the same
    words again, whatever the words are and whichever come one after the other. -/
theorem scan_joined {source : String} (herror : ∀ token ∈ scan source, token.kind ≠ .error) {blank : Char}
    (hblank : blank ∈ blanks) :
    (scan ((String.singleton blank).intercalate
      (((scan source).filter (·.kind ≠ .endOfInput)).map Token.lexeme))).map word = (scan source).map word := by
  obtain ⟨words, last, heq, hlast, hwords⟩ := (scans_scan source).words herror
  have hkind : last.kind = .endOfInput := congrArg Prod.fst hlast
  have hfilter : (scan source).filter (·.kind ≠ .endOfInput) = words := by
    rw [heq, List.filter_append, List.filter_eq_self.mpr fun w hw => decide_eq_true (hwords w hw).ne_endOfInput]
    simp [hkind]
  obtain ⟨tokens, hscans, hmap⟩ := scans_intercalate hblank hwords 1
  have hjoined : ((String.singleton blank).intercalate (words.map Token.lexeme)).toList =
      [blank].intercalate (words.map (·.lexeme.toList)) := by
    simp [String.toList_intercalate, Function.comp_def]
  rw [hfilter, Scans.unique (scans_scan _) (hjoined ▸ hscans), hmap, heq, List.map_append,
    List.map_singleton, hlast]

/-- Signs of two characters, a number with a fraction, a comment, and a string with slashes, a keyword and a
line break in it. -/
theorem scan_joined_mixed :
    (∀ token ∈ scan "a<=b==!\"// and\nor\"1.5/2//end", token.kind ≠ .error) ∧ '\n' ∈ blanks ∧
    (scan "a\n<=\nb\n==\n!\n\"// and\nor\"\n1.5\n/\n2").map word =
      (scan "a<=b==!\"// and\nor\"1.5/2//end").map word := by
  have herror : ∀ token ∈ scan "a<=b==!\"// and\nor\"1.5/2//end", token.kind ≠ .error := by decide +kernel
  have hjoined : (String.singleton '\n').intercalate (((scan "a<=b==!\"// and\nor\"1.5/2//end").filter
      (·.kind ≠ .endOfInput)).map Token.lexeme) = "a\n<=\nb\n==\n!\n\"// and\nor\"\n1.5\n/\n2" := by
        decide +kernel
  refine ⟨herror, by decide, ?_⟩
  rw [← hjoined]
  exact scan_joined herror (by decide)

end Lox.Token
