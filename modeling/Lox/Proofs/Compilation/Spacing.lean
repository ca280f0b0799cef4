import Lox.Proofs.Compilation.Lockstep
import Lox.Proofs.Likeness

/-! # Spacing and line breaks

Blanks, comments and line breaks reach the compiler only as the lines of tokens, and lines only reach the line
tables of functions and the diagnostics. So texts of the same words compile to the same script but for its
line tables, or are refused for the same reasons at the same words. -/

namespace Lox

/-- A token without its line. -/
def Token.word (token : Token) : Token.Kind × String := (token.kind, token.lexeme)

/-- Texts that differ in the lines of their tokens. -/
def Variation.respaced : Variation where
  line _ _ := True
  word x := x
  constant a b := a.unlined = b.unlined

namespace Variation

theorem onFunction_respaced {f g : Function} (h : respaced.OnFunction f g) : f.unlined = g.unlined := by
  obtain ⟨harity, hcode, -, hconstants, hname⟩ := h
  refine Function.unlined_eq_iff.mpr ⟨harity.symm, ?_, hcode.symm, ?_⟩
  · rw [hname]
    exact Option.map_id'.symm
  · exact List.forall₂_eq_eq_eq ▸ List.forall₂_map_left_iff.mpr (List.forall₂_map_right_iff.mpr hconstants)

theorem lawful_respaced : respaced.Lawful where
  line_unread := trivial
  injective h := h
  empty := rfl
  number _ := rfl
  string _ := rfl
  name _ := rfl
  function h := congrArg Constant.function (onFunction_respaced h)

theorem onDiagnostic_respaced {a b : Diagnostic} (h : respaced.OnDiagnostic a b) :
    a.place = b.place ∧ a.cause = b.cause := by
  obtain ⟨-, hplace, hcause⟩ := h
  refine ⟨hplace.symm ▸ ?_, hcause.symm ▸ ?_⟩
  · cases a.place <;> rfl
  · cases a.cause <;> rfl

end Variation

/-- Two texts of the same words, however spaced: both compile, to scripts that differ in nothing but
    line tables, also of the functions inside; or both are refused, with diagnostics that agree one by
    one in place and cause. -/
theorem compile_respaced {source other : String}
    (h : (Token.scan source).map Token.word = (Token.scan other).map Token.word) :
    (∃ f g, compile source = .ok f ∧ compile other = .ok g ∧ f.unlined = g.unlined) ∨
      ∃ as bs, compile source = .error as ∧ compile other = .error bs ∧
        List.Forall₂ (fun a b => a.place = b.place ∧ a.cause = b.cause) as bs := by
  have htokens : List.Forall₂ Variation.respaced.OnToken (Token.scan source) (Token.scan other) := by
    rw [← List.forall₂_eq_eq_eq, List.forall₂_map_left_iff, List.forall₂_map_right_iff] at h
    refine h.imp fun t u hword => ?_
    exact ⟨(congrArg Prod.fst hword).symm, (congrArg Prod.snd hword).symm, trivial, fun _ => rfl⟩
  rcases Variation.lawful_respaced.compile_cases htokens with ⟨f, g, hf, hg, hfunction⟩ |
    ⟨as, bs, has, hbs, hdiagnostics⟩
  · exact .inl ⟨f, g, hf, hg, Variation.onFunction_respaced hfunction⟩
  · exact .inr ⟨as, bs, has, hbs, hdiagnostics.imp fun _ _ => Variation.onDiagnostic_respaced⟩

/-- A text with three errors, on one line and on several. -/
theorem compile_respaced_errors : ∃ as bs,
    compile "var a = ; fun f(x { print x; } { var b; var b; }" = .error as ∧
    compile "var a\n= ;\nfun f(x // no end\n{ print x; }\n\n\n\n{ var   b; var b; }" = .error bs ∧
    as.map Diagnostic.line = [1, 1, 1] ∧ bs.map Diagnostic.line = [2, 4, 8] ∧
    List.Forall₂ (fun a b => a.place = b.place ∧ a.cause = b.cause) as bs := by
  have hlines : (match compile "var a = ; fun f(x { print x; } { var b; var b; }",
        compile "var a\n= ;\nfun f(x // no end\n{ print x; }\n\n\n\n{ var   b; var b; }" with
      | .error as, .error bs => decide (as.map Diagnostic.line = [1, 1, 1] ∧ bs.map Diagnostic.line = [2, 4, 8])
      | _, _ => false) = true := by decide +kernel
  have hwords : (Token.scan "var a = ; fun f(x { print x; } { var b; var b; }").map Token.word =
      (Token.scan "var a\n= ;\nfun f(x // no end\n{ print x; }\n\n\n\n{ var   b; var b; }").map Token.word := by
    decide +kernel
  rcases compile_respaced hwords with ⟨f, g, hf, -, -⟩ | ⟨as, bs, has, hbs, hagree⟩
  · rw [hf] at hlines
    cases hlines
  · rw [has, hbs] at hlines
    obtain ⟨hleft, hright⟩ := of_decide_eq_true hlines
    exact ⟨as, bs, has, hbs, hleft, hright, hagree⟩

end Lox
