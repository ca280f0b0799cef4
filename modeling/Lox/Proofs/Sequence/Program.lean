import Lox.Proofs.Flow.Function
import Lox.Proofs.Sequence.Graft
import Lox.Proofs.Unambiguity

/-! # The code of programs one after the other

If two texts compile and so does one after the other, the code of the whole is that of the first without its
return, followed by that of the second. The lines of the second are later ones, and so are the constants
that it refers to. -/

namespace Lox

/-! ### Tokens and trees -/

namespace Grammar

theorem agree_of_words {tail init : List Token} {last : Token}
    (hwords : List.Forall₂ Token.SameWord (init ++ [last]) (init ++ [last])) (hlast : last.kind = .endOfInput)
    (htail : ∀ token ∈ tail.head?, token.kind ≠ .elseWord) :
    Agree tail (init ++ [last]) (init ++ tail) := by
  induction init with
  | nil => exact .stop hlast htail
  | cons token init ih =>
    cases hwords with
    | cons hword hwords => exact .cons hword (ih hwords)

theorem exists_agree {tokens others : List Token} (hends : Ends tokens)
    (hwords : List.Forall₂ Token.SameWord tokens others) :
    ∃ last, last.kind = .endOfInput ∧ Agree [last] tokens others := by
  induction hwords with
  | nil => exact absurd hends id
  | @cons token token' _ _ hword hwords ih =>
    cases hwords with
    | nil =>
      have hlast : token'.kind = .endOfInput := hword.kind.trans hends
      refine ⟨token', hlast, .stop hends ?_⟩
      rintro _ ⟨⟩
      rw [hlast]
      decide
    | cons hword' hwords =>
      obtain ⟨last, hlast, hagree⟩ := ih hends.2
      exact ⟨last, hlast, .cons hword hagree⟩

theorem Agree.eq_tail {tail rest : List Token} {last : Token} (h : Agree tail [last] rest) : rest = tail := by
  cases h with
  | stop => rfl
  | cons _ h => cases h

/-- The declarations of a program do not begin with an `else`. -/
theorem Declarations.noElse {input : List Token} {ds : List Decl} {last : Token}
    (h : Declarations input ds [last])
    (hlast : last.kind = .endOfInput) : ∀ token ∈ input.head?, token.kind ≠ .elseWord := by
  cases h with
  | none =>
    rintro _ ⟨⟩
    rw [hlast]
    decide
  | more hd =>
    obtain ⟨token, tail, rfl, hstarts⟩ := hd.starts
    rintro _ ⟨⟩ helse
    rw [helse] at hstarts
    cases hstarts

/-- The trees of a program that is two others one after the other are twins of theirs. -/
theorem exists_twins {a b : String} {r : Routine} {ds ds' : List Decl} {last last' : Token}
    (hds : Declarations (Token.scan a) ds [last]) (hlast : last.kind = .endOfInput)
    (hds' : Declarations (Token.scan b) ds' [last']) (hlast' : last'.kind = .endOfInput)
    (h : Program (Token.scan (a ++ "\n" ++ b)) r) :
    ∃ place es es' line, r = ⟨place, [], es ++ es', line⟩ ∧ Decl.Twins ds es ∧ Decl.Twins ds' es' := by
  have herror := Program.readable (Program.mk hds hlast)
  obtain ⟨init, stop, others, hscan, hstop, hscan', hwords⟩ := Token.scan_append (b := b) herror
  obtain ⟨finish, hfinish, hagree'⟩ := exists_agree (Token.ends_scan b) hwords
  -- What follows the first program is the second one, which begins with no `else`.
  have hagree : Agree others (Token.scan a) (Token.scan (a ++ "\n" ++ b)) := by
    have hself := @Token.sameWord_scan a
    rw [hscan] at hself ⊢
    rw [hscan']
    exact agree_of_words hself hstop (hagree'.noElse (hds'.noElse hlast'))
  obtain ⟨es, rest, hes, hrest, htwins⟩ := hds.graft hagree
  obtain ⟨es', rest', hes', hrest', htwins'⟩ := hds'.graft hagree'
  obtain rfl := hrest.eq_tail
  obtain rfl := hrest'.eq_tail
  exact ⟨_, es, es', _, h.unique (.mk (hes.append hes') hfinish), htwins, htwins'⟩

end Grammar

/-! ### Code -/

/-- The scope of a script, whose declarations are globals. -/
abbrev Scope.script : Scope := Scope.ofRoutine none []

theorem Scope.afterAll_script (ds : List Decl) : Scope.script.afterAll ds = Scope.script := by
  induction ds with
  | nil => rfl
  | cons d ds ih =>
    have hafter : Scope.script.after d.name? = Scope.script := by cases d.name? <;> rfl
    rw [Scope.afterAll, hafter, ih]

theorem Scope.roomy_script : Scope.script.Roomy := Nat.le_of_ble_eq_true rfl

theorem Decl.codes_append (scope : Scope) (count : Nat) (ds ds' : List Decl) :
    Decl.codes scope count (ds ++ ds') = Decl.codes scope count ds ++
      Decl.codes (scope.afterAll ds) (count + (Decl.codes scope count ds).constants.length) ds' := by
  induction ds generalizing scope count with
  | nil => rfl
  | cons d ds ih =>
    simp only [List.cons_append, Decl.codes, Scope.afterAll, ih, Fragment.constants_append, List.length_append,
      Fragment.append_assoc, Nat.add_assoc]

namespace Fragment

/-- The code of a script with the given body. -/
def ended (body : Fragment) (line : UInt32) : Fragment := body ++ .single line 1 .nil ++ .single line 2 .ret

/-- A script has this body. -/
structure IsBody (body : Fragment) (f : Function) : Prop where
  makes : ∃ line, (body.ended line).Makes f
  name : f.name = none
  arity : f.arity = 0

/-- Whatever its instructions lead to is inside some code or right behind it. -/
def Closed (body : Fragment) : Prop :=
  body.Along (fun offset item => ∀ place ∈ item.instruction.leads offset, place ≤ body.size) 0

theorem lt_of_heightAt {a : Fragment} {place height : Nat} (h : Item.heightAt a.items place = some height) :
    place < a.size := by
  obtain ⟨items, constants⟩ := a
  induction items generalizing place with
  | nil => cases h
  | cons item items ih =>
    have hsize : (⟨item :: items, constants⟩ : Fragment).size =
        item.size + (⟨items, constants⟩ : Fragment).size := by
      simp [size]
    have hpos := item.size_pos
    rw [hsize]
    rw [Item.heightAt] at h
    split at h
    · omega
    · split at h
      · cases h
      · have hlt := ih h
        omega

end Fragment

section

variable {place : Nat} {ds : List Decl} {line : UInt32}

theorem Routine.isBody (h : Routine.Allowed none ⟨place, [], ds, line⟩) :
    (Decl.codes Scope.script 0 ds).IsBody (Routine.function none ⟨place, [], ds, line⟩) := by
  have hlegal : Routine.Legal none ⟨place, [], ds, line⟩ := ⟨h, fun _ => rfl⟩
  refine ⟨⟨line, ?_⟩, rfl, rfl⟩
  have hmakes := hlegal.makes_code
  rwa [Routine.code, Scope.afterAll_script] at hmakes

/-- The declarations of a script lead nowhere but to one another and to what follows them. -/
theorem Decl.closed_codes (hallowed : Decl.AllAllowed true Scope.script ds)
    (hroom : (Decl.codes Scope.script 0 ds).constants.length ≤ Chunk.maxConstants) :
    (Decl.codes Scope.script 0 ds).Closed := by
  let body := Decl.codes Scope.script 0 ds
  let code := body ++ .single 0 1 .nil
  let chunk : Chunk := { code := #[], lines := #[], constants := body.constants }
  have hmarked : code.Marked (Item.heightAt code.items) 0 := Item.along_heightAt code.items
  obtain ⟨hbody, hnil⟩ := Fragment.along_append.mp hmarked
  have hexit := Fragment.along_single.mp hnil
  rw [Decl.size_codes] at hexit
  have hroom' : chunk.constants.length ≤ Chunk.maxConstants := hroom
  obtain ⟨-, hflows⟩ := Decl.flowsAll hroom' ds hallowed Scope.roomy_script
    ⟨hbody, Constant.pooled_self _⟩ (by rw [Scope.afterAll_script]; exact hexit)
  refine hflows.mono fun offset item hitem p hp => ?_
  have hlt := Fragment.lt_of_heightAt (hitem.leads p hp)
  simp only [code, Fragment.size_append, Fragment.size_single] at hlt
  exact Nat.le_of_lt_succ hlt

end

/-- The bodies of two scripts, and of one that is both of them, one after the other. They keep clear of the
    slot of the script. The first leads to the second, which refers to later constants in the whole. -/
structure Bodies (first second whole : Function) (x y z : Fragment) : Prop where
  first : x.IsBody first
  second : y.IsBody second
  whole : z.IsBody whole
  closed : x.Closed
  clear : x.Clear 1
  clear' : y.Clear 1
  code : z.shifted 0 = x.shifted 0 ++ y.shifted x.constants.length

/-- The code of two texts that compile, and of one after the other. -/
theorem exists_bodies {a b : String} {first second whole : Function} (ha : compile a = .ok first)
    (hb : compile b = .ok second) (hc : compile (a ++ "\n" ++ b) = .ok whole) :
    ∃ x y z, Bodies first second whole x y z := by
  obtain ⟨_, hfirst, hallowed, rfl⟩ := (compile_iff_program a first).mp ha
  obtain ⟨_, hsecond, hallowed', rfl⟩ := (compile_iff_program b second).mp hb
  obtain ⟨r, hwhole, hallowed'', rfl⟩ := (compile_iff_program _ whole).mp hc
  obtain ⟨ds, last, hds, hlast, rfl⟩ := Grammar.program_iff.mp hfirst
  obtain ⟨ds', last', hds', hlast', rfl⟩ := Grammar.program_iff.mp hsecond
  obtain ⟨place, es, es', line, rfl, htwins, htwins'⟩ := Grammar.exists_twins hds hlast hds' hlast' hwhole
  have hbottomed : Scope.script.Bottomed := ⟨[], rfl⟩
  have hall := hallowed.2.2.1
  have hall' := hallowed'.2.2.1
  have hcode := htwins.code 0 Scope.script 0
  refine ⟨Decl.codes Scope.script 0 ds, Decl.codes Scope.script 0 ds', Decl.codes Scope.script 0 (es ++ es'),
    ?_⟩
  refine ⟨Routine.isBody hallowed, Routine.isBody hallowed', Routine.isBody hallowed'',
    Decl.closed_codes hall hallowed.2.2.2, htwins.clear 0 hall Scope.roomy_script hbottomed,
    htwins'.clear 0 hall' Scope.roomy_script hbottomed, ?_⟩
  rw [Decl.codes_append, Scope.afterAll_script, Fragment.shifted_append, hcode,
    Fragment.length_of_shifted hcode, htwins'.code]

end Lox
