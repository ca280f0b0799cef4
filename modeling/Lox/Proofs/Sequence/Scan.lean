import Mathlib.Data.List.Forall2
import Lox.Proofs.Scan

/-! # Scanning texts one after the other

The tokens of a text without lexical errors are the same when a line break and another text follow it, up to
the end of the input. The tokens of the other text come next, on later lines. -/

namespace Lox.Token

/-- The tokens of a text, one after the other. -/
inductive Scans : UInt32 → List Char → List Token → Prop
  | done {line : UInt32} {text rest : List Char} {token : Token} (hnext : next line text = (token, rest))
    (hend : token.kind = .endOfInput) : Scans line text [token]
  | more {line : UInt32} {text rest : List Char} {token : Token} {tokens : List Token}
      (hnext : next line text = (token, rest))
    (hkind : token.kind ≠ .endOfInput) (h : Scans token.line rest tokens) : Scans line text (token :: tokens)

variable {line line' : UInt32} {text rest more : List Char} {token : Token} {tokens tokens' : List Token}

theorem scans_scanUpTo (count : Nat) (line : UInt32) (text : List Char) (found : Array Token)
    (h : text.length < count) :
    ∃ tokens, (scanUpTo count line text found).toList = found.toList ++ tokens ∧ Scans line text tokens := by
  induction count generalizing line text found with
  | zero => exact absurd h (Nat.not_lt_zero _)
  | succ count ih =>
    unfold scanUpTo
    dsimp only
    rcases next_spec line text with hend | ⟨hkind, hlength⟩
    · rw [if_pos hend]
      exact ⟨[(next line text).1], Array.toList_push, .done rfl hend⟩
    · rw [if_neg hkind]
      obtain ⟨tokens, heq, hscans⟩ :=
        ih (next line text).1.line (next line text).2 (found.push (next line text).1) (by omega)
      refine ⟨(next line text).1 :: tokens, ?_, .more rfl hkind hscans⟩
      rw [heq, Array.toList_push, List.append_assoc]
      rfl

theorem scans_scan (source : String) : Scans 1 source.toList (scan source) := by
  obtain ⟨tokens, heq, hscans⟩ := scans_scanUpTo (source.length + 1) 1 source.toList #[] (by
    rw [String.length_toList]
    exact Nat.lt_succ_self _)
  rw [scan, heq]
  exact hscans

theorem Scans.unique (h : Scans line text tokens) (h' : Scans line text tokens') : tokens = tokens' := by
  induction h generalizing tokens' with
  | done hnext hend =>
    cases h' with
    | done hnext' =>
      cases hnext.symm.trans hnext'
      rfl
    | more hnext' hkind =>
      cases hnext.symm.trans hnext'
      exact absurd hend hkind
  | more hnext hkind _ ih =>
    cases h' with
    | done hnext' hend =>
      cases hnext.symm.trans hnext'
      exact absurd hend hkind
    | more hnext' _ h' =>
      cases hnext.symm.trans hnext'
      rw [ih h']

/-! ### Lines -/

/-- The same word, on any line. An identifier is not empty. -/
structure SameWord (token token' : Token) : Prop where
  kind : token'.kind = token.kind
  lexeme : token'.lexeme = token.lexeme
  name : token.kind = .identifier → token.lexeme ≠ ""

theorem skipGap_reline (inComment : Bool) (line line' : UInt32) (text : List Char) :
    (skipGap inComment line' text).2 = (skipGap inComment line text).2 := by
  induction text generalizing inComment line line' with
  | nil => rfl
  | cons c rest ih =>
    rw [skipGap, skipGap]
    split_ifs
    · exact ih ..
    · exact ih ..
    · exact ih ..
    · exact ih ..
    · rfl

theorem sameWord_of_kind {kind : Kind} {lexeme : String} (hkind : kind ≠ .identifier) :
    SameWord ⟨kind, lexeme, line⟩ ⟨kind, lexeme, line'⟩ := ⟨rfl, rfl, fun h => absurd h hkind⟩

/-- The line of a token is the only thing in which the line of its text shows. -/
theorem scanFrom_reline (line line' : UInt32) (first : Char) (rest : List Char) :
    SameWord (scanFrom line first rest).1 (scanFrom line' first rest).1 ∧
      (scanFrom line' first rest).2 = (scanFrom line first rest).2 := by
  have hword (word : List Char) : String.ofList (first :: word) ≠ "" := by
    intro hempty
    have hlist := congrArg String.toList hempty
    rw [String.toList_ofList] at hlist
    cases hlist
  unfold scanFrom
  extract_lets single withEqual single' withEqual'
  have hsingle (kind : Kind) (hkind : kind ≠ .identifier) :
      SameWord (single kind).1 (single' kind).1 ∧ (single' kind).2 = (single kind).2 :=
    ⟨sameWord_of_kind hkind, rfl⟩
  have hwithEqual (short long : Kind) (hshort : short ≠ .identifier) (hlong : long ≠ .identifier) :
      SameWord (withEqual short long).1 (withEqual' short long).1 ∧
      (withEqual' short long).2 = (withEqual short long).2 := by
    unfold withEqual withEqual'
    split
    · exact ⟨sameWord_of_kind hlong, rfl⟩
    · exact hsingle short hshort
  split_ifs
  · exact ⟨⟨rfl, rfl, fun _ => hword _⟩, rfl⟩
  · exact ⟨sameWord_of_kind (by decide), rfl⟩
  · split
    case h_15 =>
      dsimp only
      split <;> exact ⟨sameWord_of_kind (by decide), rfl⟩
    case h_16 => exact ⟨sameWord_of_kind (by decide), rfl⟩
    all_goals first
      | exact hsingle _ (by decide)
      | exact hwithEqual _ _ (by decide) (by decide)

theorem next_reline (line line' : UInt32) (text : List Char) :
    SameWord (next line text).1 (next line' text).1 ∧ (next line' text).2 = (next line text).2 := by
  have hgap := skipGap_reline false line line' text
  unfold next
  generalize skipGap false line text = x, skipGap false line' text = y at hgap
  obtain ⟨after, tail⟩ := x
  obtain ⟨after', tail'⟩ := y
  cases hgap
  cases tail with
  | nil => exact ⟨sameWord_of_kind (by decide), rfl⟩
  | cons first rest => exact scanFrom_reline after after' first rest

theorem Scans.reline (h : Scans line text tokens) (line' : UInt32) :
    ∃ tokens', Scans line' text tokens' ∧ List.Forall₂ SameWord tokens tokens' := by
  induction h generalizing line' with
  | @done line text _ _ hnext hend =>
    obtain ⟨hword, hrest⟩ := next_reline line line' text
    rw [hnext] at hword hrest
    exact ⟨[_], .done rfl (hword.kind.trans hend), .cons hword .nil⟩
  | @more line text rest _ _ hnext hkind _ ih =>
    obtain ⟨hword, hrest⟩ := next_reline line line' text
    rw [hnext] at hword hrest
    obtain ⟨tokens', hscans, hwords⟩ := ih (next line' text).1.line
    have hnext' : next line' text = ((next line' text).1, rest) := Prod.ext rfl hrest
    exact ⟨_ :: tokens', .more hnext' (fun h => hkind (hword.kind.symm.trans h)) hscans, .cons hword hwords⟩

/-! ### Texts after a text -/

theorem skipGap_append (inComment : Bool) (line : UInt32) (text more : List Char) :
    skipGap inComment line (text ++ '\n' :: more) = match skipGap inComment line text with
      | (after, []) => skipGap false (after + 1) more
      | (after, first :: rest) => (after, first :: rest ++ '\n' :: more) := by
  induction text generalizing inComment line with
  | nil => rfl
  | cons c rest ih =>
    have hhead : (rest ++ '\n' :: more).head? = some '/' ↔ rest.head? = some '/' := by
      cases rest <;> simp
    rw [List.cons_append, skipGap, skipGap]
    simp only [hhead]
    split_ifs
    · exact ih ..
    · exact ih ..
    · exact ih ..
    · exact ih ..
    · rfl

theorem span_append {p : Char → Bool} (hp : p '\n' = false) (text more : List Char) :
    (text ++ '\n' :: more).span p = ((text.span p).1, (text.span p).2 ++ '\n' :: more) := by
  rw [List.span_eq_takeWhile_dropWhile, List.span_eq_takeWhile_dropWhile]
  induction text with
  | nil => simp [hp]
  | cons c text ih =>
    simp only [List.cons_append, List.takeWhile_cons, List.dropWhile_cons]
    cases p c <;> simp_all

theorem splitFraction_append (text more : List Char) :
    splitFraction (text ++ '\n' :: more) = ((splitFraction text).1,
      (splitFraction text).2 ++ '\n' :: more) := by
  match text with
  | [] => rfl
  | [c] =>
    by_cases hpoint : c = '.'
    · subst hpoint
      rfl
    · simp [splitFraction, hpoint]
  | c :: d :: rest =>
    by_cases hpoint : c = '.'
    · subst hpoint
      have hspan := span_append (p := Char.isDigit) (by decide) (d :: rest) more
      simp only [List.cons_append] at hspan ⊢
      rw [splitFraction, splitFraction]
      split_ifs
      · rw [hspan]
      · rfl
    · simp [splitFraction, hpoint]

/-- What was found in a text is found in a longer one. -/
theorem span_append_of_found {p : Char → Bool} {text after : List Char} {found : Char}
    (h : (text.span p).2 = found :: after)
    (tail : List Char) : (text ++ tail).span p = ((text.span p).1, found :: after ++ tail) := by
  rw [List.span_eq_takeWhile_dropWhile] at h ⊢
  rw [List.span_eq_takeWhile_dropWhile]
  dsimp only at h ⊢
  induction text with
  | nil => cases h
  | cons c text ih =>
    simp only [List.cons_append, List.takeWhile_cons, List.dropWhile_cons] at h ⊢
    cases hc : p c with
    | true =>
      rw [hc] at h
      obtain ⟨htake, hdrop⟩ := Prod.mk.inj (ih h)
      simp [htake, hdrop]
    | false =>
      rw [hc] at h
      cases h
      rfl

/-- A token without a lexical error ends at a line break or before. -/
theorem scanFrom_append (line : UInt32) (first : Char) (rest more : List Char)
    (herror : (scanFrom line first rest).1.kind ≠ .error) : scanFrom line first (rest ++ '\n' :: more) =
      ((scanFrom line first rest).1, (scanFrom line first rest).2 ++ '\n' :: more) := by
  unfold scanFrom at herror ⊢
  by_cases hword : startsWord first = true
  · simp only [if_pos hword, span_append (p := continuesWord) (by decide)]
  by_cases hdigit : first.isDigit = true
  · simp only [if_neg hword, if_pos hdigit, span_append (p := Char.isDigit) (by decide), splitFraction_append]
  simp only [if_neg hword, if_neg hdigit] at herror ⊢
  split
  case h_11 | h_12 | h_13 | h_14 =>
    cases rest with
    | nil => rfl
    | cons c rest =>
      by_cases hequal : c = '='
      · subst hequal
        rfl
      · simp [hequal]
  case h_15 =>
    cases hfound : (rest.span (· != '"')).2 with
    | nil =>
      simp only [hfound] at herror
      exact absurd rfl herror
    | cons quote after =>
      rw [span_append_of_found hfound]
      rfl
  case h_16 =>
    split at herror
    case h_16 => exact absurd rfl herror
    all_goals contradiction
  all_goals rfl

theorem next_append (hnext : next line text = (token, rest)) (herror : token.kind ≠ .error)
    (hend : token.kind ≠ .endOfInput)
    (more : List Char) : next line (text ++ '\n' :: more) = (token, rest ++ '\n' :: more) := by
  unfold next at hnext ⊢
  rw [skipGap_append]
  generalize skipGap false line text = gap at hnext ⊢
  obtain ⟨after, _ | ⟨first, tail⟩⟩ := gap
  · cases hnext
    exact absurd rfl hend
  · dsimp only at hnext ⊢
    have hkind : (scanFrom after first tail).1.kind ≠ .error := by rwa [hnext]
    rw [List.cons_append]
    dsimp only
    rw [scanFrom_append after first tail more hkind, hnext]

theorem next_append_end (hnext : next line text = (token, rest)) (hend : token.kind = .endOfInput)
    (more : List Char) :
    next line (text ++ '\n' :: more) = next (token.line + 1) more := by
  unfold next at hnext ⊢
  rw [skipGap_append]
  generalize skipGap false line text = gap at hnext ⊢
  obtain ⟨after, _ | ⟨first, tail⟩⟩ := gap
  · cases hnext
    rfl
  · dsimp only at hnext
    have hkind := (taken_scanFrom after first tail).1
    rw [hnext] at hkind
    exact absurd hend hkind

/-- After the tokens of a text, and a line break, come those of the text that follows. -/
theorem Scans.append (h : Scans line text tokens) (herror : ∀ token ∈ tokens, token.kind ≠ .error) :
    ∃ init last, tokens = init ++ [last] ∧ last.kind = .endOfInput ∧
      ∀ more others, Scans (last.line + 1) more others →
      Scans line (text ++ '\n' :: more) (init ++ others) := by
  induction h with
  | @done _ _ _ token hnext hend =>
    refine ⟨[], token, rfl, hend, fun more others hothers => ?_⟩
    have hnext' := next_append_end hnext hend more
    cases hothers with
    | done hnext'' hend' => exact .done (hnext'.trans hnext'') hend'
    | more hnext'' hkind hothers => exact .more (hnext'.trans hnext'') hkind hothers
  | @more _ _ _ token _ hnext hkind _ ih =>
    obtain ⟨init, last, rfl, hlast, hrest⟩ :=
      ih fun token htoken => herror token (List.mem_cons_of_mem _ htoken)
    refine ⟨token :: init, last, rfl, hlast, fun more others hothers => ?_⟩
    exact .more (next_append hnext (herror token List.mem_cons_self) hkind more) hkind
      (hrest more others hothers)

/-- The identifiers of a text are not empty. -/
theorem sameWord_scan {text : String} : List.Forall₂ SameWord (scan text) (scan text) := by
  obtain ⟨others, -, hwords⟩ := (scans_scan text).reline 1
  refine List.forall₂_same.mpr fun token htoken => ⟨rfl, rfl, ?_⟩
  obtain ⟨k, hk, rfl⟩ := List.getElem_of_mem htoken
  exact (hwords.get hk (hwords.length_eq ▸ hk)).name

/-- The tokens of two texts with a line break between them: those of the first up to its end, and those of the
    second on later lines. -/
theorem scan_append {a b : String} (herror : ∀ token ∈ scan a, token.kind ≠ .error) : ∃ init last others,
    scan a = init ++ [last] ∧ last.kind = .endOfInput ∧ scan (a ++ "\n" ++ b) = init ++ others ∧
      List.Forall₂ SameWord (scan b) others := by
  obtain ⟨init, last, heq, hlast, happend⟩ := (scans_scan a).append herror
  obtain ⟨others, hothers, hwords⟩ := (scans_scan b).reline (last.line + 1)
  refine ⟨init, last, others, heq, hlast, Scans.unique (scans_scan _) ?_, hwords⟩
  have hscans := happend b.toList others hothers
  simpa using hscans

end Lox.Token
