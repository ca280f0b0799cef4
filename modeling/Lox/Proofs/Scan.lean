import Mathlib.Data.List.TakeDrop
import Lox.Token.Scan

/-! # Scanning

Every token takes at least one character of the text, so scanning reaches the end of the
input, and ends there. -/

namespace Lox

/-- Tokens whose last one, and no other, is the end of the input. -/
def Ends : List Token → Prop
  | [] => False
  | [last] => last.kind = .endOfInput
  | token :: next :: rest => token.kind ≠ .endOfInput ∧ Ends (next :: rest)

theorem Ends.eq_nil {token : Token} {rest : List Token} (h : Ends (token :: rest))
    (hkind : token.kind = .endOfInput) :
    rest = [] := by
  cases rest with
  | nil => rfl
  | cons next rest => exact absurd hkind h.1

theorem Ends.cons {token : Token} {rest : List Token} (h : Ends rest) (hkind : token.kind ≠ .endOfInput) :
    Ends (token :: rest) := by
  cases rest with
  | nil => exact absurd h id
  | cons next rest => exact ⟨hkind, h⟩

namespace Token

/-- The characters of signs; those in the second list can have an equals sign after them. -/
def marks : List Char := ['(', ')', '{', '}', ',', ';', '-', '+', '/', '*']

def comparisons : List Char := ['!', '=', '<', '>']

/-- No character of a sign, nor the quote, is in a class of letters or digits. -/
theorem not_class_of_mem {c : Char} (h : c ∈ '"' :: (marks ++ comparisons)) :
    startsWord c = false ∧ c.isDigit = false := by
  have hall : ('"' :: (marks ++ comparisons)).all (fun c => !startsWord c && !c.isDigit) = true := by decide
  simpa only [Bool.and_eq_true, Bool.not_eq_true'] using List.all_eq_true.mp hall c h

theorem length_skipGap (inComment : Bool) (line : UInt32) (text : List Char) :
    (skipGap inComment line text).2.length ≤ text.length := by
  fun_induction skipGap inComment line text with
  | case1 => exact Nat.le_refl _
  | case2 | case3 | case4 | case5 =>
    rw [List.length_cons]
    omega
  | case6 => exact Nat.le_refl _

theorem length_span_le (p : Char → Bool) (text : List Char) : (text.span p).2.length ≤ text.length := by
  rw [List.span_eq_takeWhile_dropWhile]
  exact (List.dropWhile_suffix p).length_le

theorem length_splitFraction (text : List Char) : (splitFraction text).2.length ≤ text.length := by
  unfold splitFraction
  split
  · rename_i c rest
    split
    · have hspan := length_span_le Char.isDigit (c :: rest)
      exact Nat.le_succ_of_le hspan
    · exact Nat.le_refl _
  · exact Nat.le_refl _

theorem ofWord_ne_endOfInput (word : String) : Kind.ofWord word ≠ .endOfInput := by
  unfold Kind.ofWord
  cases hfound : Kind.keywords.find? fun kind => kind.text == word with
  | none => decide
  | some kind =>
    intro heq
    have hmem := List.mem_of_find?_eq_some hfound
    change kind = .endOfInput at heq
    subst heq
    exact absurd hmem (by decide)

/-- A token is taken off a text: it is not the end of the input, and the text after it is not longer. -/
def Taken (x : Token × List Char) (text : List Char) : Prop := x.1.kind ≠ .endOfInput ∧ x.2.length ≤ text.length

theorem taken_scanFrom (line : UInt32) (first : Char) (rest : List Char) :
    Taken (scanFrom line first rest) rest := by
  have hword := length_span_le continuesWord rest
  have hdigits := length_span_le Char.isDigit rest
  have hfraction := length_splitFraction (rest.span Char.isDigit).2
  have hstring := length_span_le (· != '"') rest
  unfold scanFrom
  extract_lets single withEqual
  have hsingle : ∀ kind ≠ .endOfInput, Taken (single kind) rest := fun kind hkind => ⟨hkind, Nat.le_refl _⟩
  have hwithEqual : ∀ short ≠ .endOfInput, ∀ long ≠ .endOfInput, Taken (withEqual short long) rest := by
    intro short hshort long hlong
    unfold withEqual
    split
    · exact ⟨hlong, Nat.le_succ _⟩
    · exact hsingle short hshort
  split
  · exact ⟨ofWord_ne_endOfInput _, hword⟩
  · split
    · exact ⟨Kind.noConfusion, Nat.le_trans hfraction hdigits⟩
    · split
      case h_15 =>
        dsimp only
        split
        · exact ⟨Kind.noConfusion, Nat.zero_le _⟩
        · rename_i quote after heq
          rw [heq] at hstring
          exact ⟨Kind.noConfusion, Nat.le_of_succ_le hstring⟩
      case h_16 => exact ⟨Kind.noConfusion, Nat.le_refl _⟩
      all_goals first
        | exact hsingle _ (by decide)
        | exact hwithEqual _ (by decide) _ (by decide)

theorem next_spec (line : UInt32) (text : List Char) :
    (next line text).1.kind = .endOfInput ∨ (next line text).1.kind ≠ .endOfInput ∧
      (next line text).2.length < text.length := by
  have hgap := length_skipGap false line text
  unfold next
  split <;> rename_i heq
  · exact Or.inl rfl
  · rename_i line' first rest
    rw [heq] at hgap
    obtain ⟨hkind, hlength⟩ := taken_scanFrom line' first rest
    exact Or.inr ⟨hkind, Nat.lt_of_le_of_lt hlength hgap⟩

theorem ends_scanUpTo (count : Nat) (line : UInt32) (text : List Char) (found : Array Token)
    (h : text.length < count) :
    ∃ tokens, (scanUpTo count line text found).toList = found.toList ++ tokens ∧ Ends tokens := by
  induction count generalizing line text found with
  | zero => exact absurd h (Nat.not_lt_zero _)
  | succ count ih =>
    unfold scanUpTo
    dsimp only
    rcases next_spec line text with hend | ⟨hkind, hlength⟩
    · rw [if_pos hend]
      exact ⟨[(next line text).1], Array.toList_push, hend⟩
    · rw [if_neg hkind]
      obtain ⟨tokens, heq, hends⟩ :=
        ih (next line text).1.line (next line text).2 (found.push (next line text).1) (by omega)
      refine ⟨(next line text).1 :: tokens, ?_, hends.cons hkind⟩
      rw [heq, Array.toList_push, List.append_assoc]
      rfl

/-- The last token of a text, and no other, is the end of the input. -/
theorem ends_scan (source : String) : Ends (scan source) := by
  obtain ⟨tokens, heq, hends⟩ := ends_scanUpTo (source.length + 1) 1 source.toList #[] (by
    rw [String.length_toList]
    exact Nat.lt_succ_self _)
  rw [scan, heq]
  exact hends

end Token

end Lox
