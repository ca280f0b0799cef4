import Lox.Proofs.Simulation.Library
import Mathlib.Data.List.Nodup

/-! # Declared functions

The functions that are declared in a routine, one inside the other, have places of their own in the text, and
those of one routine have indices of their own among its constants. So a declaration is known by its place,
and also by the way to it through the constants. -/

namespace Lox

/-! ### Spread numbers -/

/-- Numbers without repetition, from `low` on and below `high`. -/
structure Spread (low high : Nat) (numbers : List Nat) : Prop where
  nodup : numbers.Nodup
  within : ∀ n ∈ numbers, low ≤ n ∧ n < high

namespace Spread

variable {a b c d : Nat} {xs ys : List Nat}

theorem nil : Spread a b [] := ⟨List.nodup_nil, fun _ h => absurd h List.not_mem_nil⟩

theorem mono (h : Spread b c xs) (hlow : a ≤ b) (hhigh : c ≤ d) : Spread a d xs := by
  refine ⟨h.nodup, fun n hn => ?_⟩
  have hwithin := h.within n hn
  omega

theorem append (h : Spread a b xs) (h' : Spread b c ys) (hab : a ≤ b) (hbc : b ≤ c) :
    Spread a c (xs ++ ys) := by
  refine ⟨h.nodup.append h'.nodup fun n hx hy => ?_, fun n hn => ?_⟩
  · have hx' := h.within n hx
    have hy' := h'.within n hy
    omega
  · rcases List.mem_append.mp hn with hn | hn
    · have hx' := h.within n hn
      omega
    · have hy' := h'.within n hn
      omega

theorem comm (h : Spread a b (xs ++ ys)) : Spread a b (ys ++ xs) :=
  ⟨List.nodup_append_comm.mp h.nodup, fun n hn => h.within n (List.mem_append.mpr (List.mem_append.mp hn).symm)⟩

theorem cons (h : Spread a b xs) (hab : a ≤ b) (hbc : b < c) : Spread a c (b :: xs) :=
  ((h.append ⟨List.nodup_singleton b, fun n hn => by rw [List.mem_singleton.mp hn]; exact ⟨Nat.le_refl b, hbc⟩⟩
    hab (Nat.le_of_lt hbc)).comm)

end Spread

/-! ### Places -/

mutual

/-- The places of all functions in a statement. -/
def Stmt.places : Stmt → List Nat
  | .print _ _ | .expression _ _ | .ret _ _ => []
  | .ifElse _ _ thenPart none => thenPart.places
  | .ifElse _ _ thenPart (some elsePart) => thenPart.places ++ elsePart.places
  | .whileLoop _ _ body => body.places
  | .forLoop _ _ _ _ body => body.places
  | .block declarations _ => Decl.placesAll declarations

/-- The places of all functions in a declaration. -/
def Decl.places : Decl → List Nat
  | .var _ => []
  | .function _ routine => routine.places
  | .statement s => s.places

/-- The places of all functions in declarations. -/
def Decl.placesAll : List Decl → List Nat
  | [] => []
  | d :: ds => d.places ++ Decl.placesAll ds

/-- The place of a routine and those of all functions inside. -/
def Routine.places : Routine → List Nat
  | ⟨place, _, body, _⟩ => place :: Decl.placesAll body

end

namespace Grammar

mutual

theorem Statement.spread {input rest : List Token} {s : Stmt} : Statement input s rest →
    Spread rest.length input.length s.places
  | .print _ _ _ | .expression _ _ | .bareReturn _ _ | .ret _ _ _ => Spread.nil
  | .ifThen _ _ he _ hs _ => by
    have hcondition := he.consumes.shorter
    refine hs.spread.mono (Nat.le_refl _) ?_
    simp only [List.length_cons] at hcondition ⊢
    omega
  | .ifElse _ _ he _ hs _ ht => by
    have hcondition := he.consumes.shorter
    have hfirst := hs.consumes.shorter
    have hsecond := ht.consumes.shorter
    simp only [List.length_cons] at hcondition hfirst ⊢
    have hspread := (ht.spread.append (hs.spread.mono (by simp) (Nat.le_refl _)) (by omega) (by omega)).comm
    exact hspread.mono (Nat.le_refl _) (by omega)
  | .whileLoop _ _ he _ hs => by
    have hcondition := he.consumes.shorter
    refine hs.spread.mono (Nat.le_refl _) ?_
    simp only [List.length_cons] at hcondition ⊢
    omega
  | .forLoop _ _ hfirst hsecond hthird hs => by
    have h₁ := hfirst.consumes.shorter
    have h₂ := hsecond.consumes.shorter
    have h₃ := hthird.consumes.shorter
    refine hs.spread.mono (Nat.le_refl _) ?_
    simp only [List.length_cons]
    omega
  | .block _ hds _ => by
    refine hds.spread.mono ?_ ?_
    · simp
    · simp

theorem Declaration.spread {input rest : List Token} {d : Decl} : Declaration input d rest →
    Spread rest.length input.length d.places
  | .var _ _ => Spread.nil
  | .function _ _ hparameters _ hds _ => by
    have hsignature := hparameters.consumes.shorter
    have hbody := hds.passes.length_le
    simp only [List.length_cons] at hsignature hbody ⊢
    exact (hds.spread.mono (by simp) (by omega)).cons (by omega) (by omega)
  | .statement hs => hs.spread

theorem Declarations.spread {input rest : List Token} {ds : List Decl} : Declarations input ds rest →
    Spread rest.length input.length (Decl.placesAll ds)
  | .none => Spread.nil
  | .more hd hds => (hds.spread.append hd.spread hds.passes.length_le (Nat.le_of_lt hd.consumes.shorter)).comm

end

/-- All functions of a program have places of their own. -/
theorem Program.nodup {input : List Token} {r : Routine} (h : Program input r) : r.places.Nodup := by
  obtain ⟨hds, -⟩ := h
  have hspread := (hds.spread.mono (Nat.zero_le _) (Nat.le_refl _)).cons (Nat.zero_le _) (Nat.lt_succ_self _)
  exact hspread.nodup

end Grammar

/-! ### Places of declared functions -/

mutual

theorem Stmt.places_eq : ∀ (s : Stmt) (scope : Scope) (count : Nat),
    s.places = (s.declared scope count).flatMap fun d => d.routine.places
  | .print _ _, scope, count | .expression _ _, scope, count | .ret _ _, scope, count => by
    rw [Stmt.places, Stmt.declared]
    rfl
  | .ifElse _ _ thenPart none, scope, count => by
    rw [Stmt.places, Stmt.declared]
    exact thenPart.places_eq scope _
  | .ifElse _ _ thenPart (some elsePart), scope, count => by
    rw [Stmt.places, Stmt.declared, List.flatMap_append, ← thenPart.places_eq, ← elsePart.places_eq]
  | .whileLoop _ _ body, scope, count => by
    rw [Stmt.places, Stmt.declared]
    exact body.places_eq scope _
  | .forLoop _ _ _ _ body, scope, count => by
    rw [Stmt.places, Stmt.declared]
    exact body.places_eq _ _
  | .block ds _, scope, count => by
    rw [Stmt.places, Stmt.declared]
    exact Decl.placesAll_eq ds scope.inner count

theorem Decl.places_eq : ∀ (d : Decl) (scope : Scope) (count : Nat),
    d.places = (d.declared scope count).flatMap fun d => d.routine.places
  | .var _, scope, count => by
    rw [Decl.places, Decl.declared]
    rfl
  | .function _ r, scope, count => by
    rw [Decl.places, Decl.declared, List.flatMap_singleton]
  | .statement s, scope, count => by
    rw [Decl.places, Decl.declared]
    exact s.places_eq scope count

theorem Decl.placesAll_eq : ∀ (ds : List Decl) (scope : Scope) (count : Nat),
    Decl.placesAll ds = (Decl.declaredAll scope count ds).flatMap fun d => d.routine.places
  | [], scope, count => by
    rw [Decl.placesAll, Decl.declaredAll]
    rfl
  | d :: ds, scope, count => by
    rw [Decl.placesAll, Decl.declaredAll, List.flatMap_append, ← d.places_eq, ← Decl.placesAll_eq ds]

end

theorem Routine.places_eq (r : Routine) (name : Option String) :
    r.places = r.place :: (r.declared name).flatMap fun d => d.routine.places := by
  obtain ⟨place, parameters, body, line⟩ := r
  rw [Routine.places, Routine.declared, ← Decl.placesAll_eq]

/-! ### Legal functions -/

mutual

theorem Stmt.legal_declared {isScript : Bool} : ∀ (s : Stmt) {scope : Scope} {count : Nat},
    s.Allowed isScript scope → ∀ d ∈ s.declared scope count, d.routine.Legal (some d.name)
  | .print _ _, scope, count, _, d, hd | .expression _ _, scope, count, _, d, hd
  | .ret _ _, scope, count, _, d, hd => by
    rw [Stmt.declared] at hd
    exact absurd hd List.not_mem_nil
  | .ifElse _ _ thenPart none, scope, count, hallowed, d, hd => by
    rw [Stmt.declared] at hd
    exact thenPart.legal_declared hallowed.2.1 d hd
  | .ifElse _ _ thenPart (some elsePart), scope, count, hallowed, d, hd => by
    rw [Stmt.declared] at hd
    rcases List.mem_append.mp hd with hd | hd
    · exact thenPart.legal_declared hallowed.2.1 d hd
    · exact elsePart.legal_declared hallowed.2.2.1 d hd
  | .whileLoop _ _ body, scope, count, hallowed, d, hd => by
    rw [Stmt.declared] at hd
    exact body.legal_declared hallowed.2.1 d hd
  | .forLoop _ _ _ _ body, scope, count, hallowed, d, hd => by
    rw [Stmt.declared] at hd
    exact body.legal_declared hallowed.2.2.2.1 d hd
  | .block ds _, scope, count, hallowed, d, hd => by
    rw [Stmt.declared] at hd
    exact Decl.legal_declaredAll ds hallowed d hd

theorem Decl.legal_declared {isScript : Bool} : ∀ (d : Decl) {scope : Scope} {count : Nat},
    d.Allowed isScript scope → ∀ inner ∈ d.declared scope count, inner.routine.Legal (some inner.name)
  | .var _, scope, count, _, inner, hinner => by
    rw [Decl.declared] at hinner
    exact absurd hinner List.not_mem_nil
  | .function name r, scope, count, hallowed, inner, hinner => by
    rw [Decl.declared] at hinner
    rw [List.mem_singleton.mp hinner]
    exact ⟨hallowed.2, fun h => by cases h⟩
  | .statement s, scope, count, hallowed, inner, hinner => by
    rw [Decl.declared] at hinner
    exact s.legal_declared hallowed inner hinner

theorem Decl.legal_declaredAll {isScript : Bool} : ∀ (ds : List Decl) {scope : Scope} {count : Nat},
    Decl.AllAllowed isScript scope ds → ∀ d ∈ Decl.declaredAll scope count ds, d.routine.Legal (some d.name)
  | [], scope, count, _, d, hd => by
    rw [Decl.declaredAll] at hd
    exact absurd hd List.not_mem_nil
  | first :: ds, scope, count, hallowed, d, hd => by
    rw [Decl.declaredAll] at hd
    rcases List.mem_append.mp hd with hd | hd
    · exact first.legal_declared hallowed.1 d hd
    · exact Decl.legal_declaredAll ds hallowed.2 d hd

end

theorem Routine.Legal.declared {name : Option String} {r : Routine} (h : r.Legal name) {d : Declared}
    (hd : d ∈ r.declared name) : d.routine.Legal (some d.name) := by
  obtain ⟨place, parameters, body, line⟩ := r
  have hallowed := h.allowed
  rw [Routine.Allowed] at hallowed
  exact Decl.legal_declaredAll body hallowed.2.2.1 d hd

/-! ### Constants of declared functions -/

/-- The compiled form of a declared function. -/
def Declared.function (d : Declared) : Function := d.routine.function (some d.name)

/-- The functions among some constants, which are counted from `count` on, are those that are declared. -/
structure Declared.Among (constants : List Constant) (count : Nat) (ds : List Declared) : Prop where
  spread : Spread count (count + constants.length) (ds.map Declared.index)
  found : ∀ {k : Nat} {f : Function}, constants[k]? = some (.function f) → ∃ d ∈ ds, d.index = count + k ∧
    f = d.function

namespace Declared.Among

variable {xs ys : List Constant} {count : Nat} {ds ds' : List Declared}

theorem none (h : ∀ f, .function f ∉ xs) : Among xs count [] :=
  ⟨Spread.nil, fun {_ f} hk => absurd (List.mem_of_getElem? hk) (h f)⟩

theorem append (h : Among xs count ds) (h' : Among ys (count + xs.length) ds') :
    Among (xs ++ ys) count (ds ++ ds') where
  spread := by
    rw [List.map_append, List.length_append, ← Nat.add_assoc]
    exact h.spread.append h'.spread (Nat.le_add_right _ _) (Nat.le_add_right _ _)
  found := by
    intro k f hk
    by_cases hlt : k < xs.length
    · rw [List.getElem?_append_left hlt] at hk
      obtain ⟨d, hd, heq⟩ := h.found hk
      exact ⟨d, List.mem_append_left _ hd, heq⟩
    · rw [List.getElem?_append_right (by omega)] at hk
      obtain ⟨d, hd, hindex, heq⟩ := h'.found hk
      exact ⟨d, List.mem_append_right _ hd, by omega, heq⟩

theorem one (d : Declared) : Among [.function d.function] d.index [d] where
  spread := ⟨List.nodup_singleton _,
    fun n hn => by rw [List.mem_singleton.mp hn]; exact ⟨Nat.le_refl _, Nat.lt_succ_self _⟩⟩
  found := by
    intro k f hk
    obtain ⟨hlt, hget⟩ := List.getElem?_eq_some_iff.mp hk
    have hzero : k = 0 := Nat.lt_one_iff.mp hlt
    subst hzero
    cases hget
    exact ⟨d, List.mem_cons_self, rfl, rfl⟩

/-- Constants before them that are no functions. -/
theorem after (h : Among ys (count + xs.length) ds) (hnone : ∀ f, .function f ∉ xs) :
    Among (xs ++ ys) count ds :=
  (none hnone).append h

end Declared.Among

mutual

theorem Stmt.among : ∀ (s : Stmt) (scope : Scope) (count : Nat),
    Declared.Among (s.code scope count).constants count (s.declared scope count)
  | .print value line, scope, count | .expression value line, scope, count
  | .ret (some value) line, scope, count => by
    rw [Stmt.declared]
    refine Declared.Among.none fun f => ?_
    simpa [Stmt.code] using Expr.function_not_mem f scope.locals value count scope.height
  | .ret none line, scope, count => by
    rw [Stmt.declared]
    refine Declared.Among.none fun f => ?_
    simp [Stmt.code]
  | .ifElse condition line thenPart none, scope, count => by
    simp only [Stmt.code, Stmt.declared, Fragment.constants_append, Fragment.constants_single, List.append_nil]
    exact (thenPart.among scope _).after fun f => Expr.function_not_mem f _ condition _ _
  | .ifElse condition line thenPart (some elsePart), scope, count => by
    simp only [Stmt.code, Stmt.declared, Fragment.constants_append, Fragment.constants_single, List.append_nil,
      List.append_assoc]
    refine Declared.Among.after ((thenPart.among scope _).append (elsePart.among scope _)) fun f => ?_
    exact Expr.function_not_mem f _ condition _ _
  | .whileLoop condition line body, scope, count => by
    simp only [Stmt.code, Stmt.declared, Fragment.constants_append, Fragment.constants_single, List.append_nil]
    exact (body.among scope _).after fun f => Expr.function_not_mem f _ condition _ _
  | .forLoop initializer condition line increment body, scope, count => by
    have hexit : ∀ line height, (Stmt.exitCode line height condition).constants = [] := by
      intro line height
      cases condition <;> rfl
    simp only [Stmt.code, Stmt.declared, Fragment.constants_append, Fragment.constants_single,
      Fragment.constants_pops, hexit, List.append_nil, List.append_assoc]
    refine Declared.Among.after ?_ fun f => Initializer.function_not_mem f _ initializer _
    refine Declared.Among.after ?_ fun f => Stmt.function_not_mem_condition f _ _ _ _ _ condition
    refine Declared.Among.after ?_ fun f => Stmt.function_not_mem_increment f _ _ _ _ _ increment
    exact body.among _ _
  | .block declarations line, scope, count => by
    simp only [Stmt.code, Stmt.declared, Fragment.constants_append, Fragment.constants_pops, List.append_nil]
    exact Decl.amongAll declarations scope.inner count

theorem Decl.among : ∀ (d : Decl) (scope : Scope) (count : Nat),
    Declared.Among (d.code scope count).constants count (d.declared scope count)
  | .var v, scope, count => by
    rw [Decl.code, Decl.declared]
    exact Declared.Among.none fun f => v.function_not_mem f scope count
  | .function name r, scope, count => by
    rw [Decl.code, Decl.declared]
    by_cases hdepth : scope.depth = 0
    · rw [if_pos hdepth, if_pos hdepth]
      show Declared.Among ([.string name] ++ [.function (r.function (some name))]) count [⟨count + 1, name, r⟩]
      exact (Declared.Among.one ⟨count + 1, name, r⟩).after (by simp)
    · rw [if_neg hdepth, if_neg hdepth]
      exact Declared.Among.one ⟨count, name, r⟩
  | .statement s, scope, count => by
    rw [Decl.code, Decl.declared]
    exact s.among scope count

theorem Decl.amongAll : ∀ (ds : List Decl) (scope : Scope) (count : Nat),
    Declared.Among (Decl.codes scope count ds).constants count (Decl.declaredAll scope count ds)
  | [], scope, count => by
    rw [Decl.codes, Decl.declaredAll]
    exact Declared.Among.none fun f => List.not_mem_nil
  | d :: ds, scope, count => by
    rw [Decl.codes, Decl.declaredAll]
    exact (d.among scope count).append (Decl.amongAll ds _ _)

end

/-- The functions among the constants of a routine are those that it declares. -/
theorem Routine.among (r : Routine) (name : Option String) :
    Declared.Among (r.function name).chunk.constants 0 (r.declared name) := by
  obtain ⟨place, parameters, body, line⟩ := r
  rw [Routine.function, Routine.declared]
  simp only [Fragment.constants_append, Fragment.constants_single, List.append_nil]
  exact Decl.amongAll body _ 0

end Lox
