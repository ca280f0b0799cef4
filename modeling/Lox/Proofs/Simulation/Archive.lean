import Lox.Proofs.Simulation.Declared
import Mathlib.Data.List.Forall2
import Mathlib.Data.List.Pairwise

/-! # Archives

A machine is given texts, each with an origin of its own. An archive has the tree of each of them. A function
of the machine is then the declaration to which the way through the constants leads, from the tree of the text
that it comes from; so the values of a machine and the values of an evaluation match. -/

namespace Lox

/-! ### Ways -/

/-- A way leads from a script through constants to a function. The last index comes first. -/
inductive Function.At (script : Function) : (path : List Nat) → Function → Prop where
  | here : At script [] script
  | inside {path : List Nat} {f g : Function} {index : Nat} (h : At script path f)
      (hg : f.chunk.constants[index]? = some (.function g)) : At script (index :: path) g

namespace Routine

/-- A way leads from a routine to one that is declared inside it. The first index comes first. -/
inductive Leads : (name : Option String) → Routine → (steps : List Nat) → (name' : Option String) → Routine →
    Prop where
  | here {name : Option String} {r : Routine} : Leads name r [] name r
  | inside {name name' : Option String} {r r' : Routine} {d : Declared} {steps : List Nat}
      (hd : d ∈ r.declared name)
      (h : Leads (some d.name) d.routine steps name' r') : Leads name r (d.index :: steps) name' r'

namespace Leads

variable {name name₁ name₂ : Option String} {r r₁ r₂ : Routine} {steps steps' : List Nat}

/-- A way goes on to a function that is declared where it ends. -/
theorem extend (h : Leads name r steps name₁ r₁) {d : Declared} (hd : d ∈ r₁.declared name₁) :
    Leads name r (steps ++ [d.index]) (some d.name) d.routine := by
  induction h with
  | here => exact .inside hd .here
  | inside hd' _ ih => exact .inside hd' (ih hd)

theorem legal (h : Leads name r steps name₁ r₁) (hlegal : r.Legal name) : r₁.Legal name₁ := by
  induction h with
  | here => exact hlegal
  | inside hd _ ih => exact ih (hlegal.declared hd)

theorem place_mem (h : Leads name r steps name₁ r₁) : r₁.place ∈ r.places := by
  induction h with
  | @here name r =>
    rw [r.places_eq name]
    exact List.mem_cons_self
  | @inside name _ r _ d _ hd _ ih =>
    rw [r.places_eq name]
    exact List.mem_cons_of_mem _ (List.mem_flatMap.mpr ⟨d, hd, ih⟩)

/-- A way ends at once, or goes through a declared function. -/
theorem cases (h : Leads name r steps name₁ r₁) : (steps = [] ∧ name = name₁ ∧ r = r₁) ∨
    ∃ d ∈ r.declared name, ∃ rest, steps = d.index :: rest ∧ Leads (some d.name) d.routine rest name₁ r₁ := by
  cases h with
  | here => exact Or.inl ⟨rfl, rfl, rfl⟩
  | inside hd h => exact Or.inr ⟨_, hd, _, rfl, h⟩

/-- A way leads to one routine. -/
theorem unique (h : Leads name r steps name₁ r₁) (h' : Leads name r steps name₂ r₂) :
    name₁ = name₂ ∧ r₁ = r₂ := by
  induction h with
  | here =>
    rcases h'.cases with ⟨-, hname, hr⟩ | ⟨d, -, rest, hsteps, -⟩
    · exact ⟨hname, hr⟩
    · cases hsteps
  | @inside name _ r _ d _ hd _ ih =>
    rcases h'.cases with ⟨hsteps, -⟩ | ⟨d', hd', rest, hsteps, hrest⟩
    · cases hsteps
    · obtain ⟨hindex, rfl⟩ := List.cons.inj hsteps
      cases List.inj_on_of_nodup_map (r.among name).spread.nodup hd hd' hindex
      exact ih hrest

/-- If all places are different, one way leads to each of them. -/
theorem steps_unique (hnodup : r.places.Nodup) (h : Leads name r steps name₁ r₁)
    (h' : Leads name r steps' name₂ r₂) (hplace : r₁.place = r₂.place) : steps = steps' := by
  induction h generalizing steps' with
  | @here name r =>
    rcases h'.cases with ⟨rfl, -, -⟩ | ⟨d, hd, rest, -, hrest⟩
    · rfl
    · rw [r.places_eq name, List.nodup_cons] at hnodup
      exact absurd (List.mem_flatMap.mpr ⟨d, hd, hplace ▸ hrest.place_mem⟩) hnodup.1
  | @inside name _ r _ d _ hd h ih =>
    rw [r.places_eq name, List.nodup_cons, List.nodup_flatMap] at hnodup
    obtain ⟨houter, hinner, hdisjoint⟩ := hnodup
    rcases h'.cases with ⟨-, -, rfl⟩ | ⟨d', hd', rest, rfl, hrest⟩
    · exact absurd (List.mem_flatMap.mpr ⟨d, hd, hplace ▸ h.place_mem⟩) houter
    · by_cases heq : d = d'
      · subst heq
        rw [ih (hinner d hd) hrest hplace]
      · have hsymm : Std.Symm (Function.onFun List.Disjoint fun d : Declared => d.routine.places) :=
          ⟨fun _ _ hxy _ hx hy => hxy hy hx⟩
        have hapart := hdisjoint.forall hd hd' heq
        exact absurd (hplace ▸ hrest.place_mem) (hapart h.place_mem)

end Leads

/-- A way through the constants of a compiled routine leads to a compiled declaration. -/
theorem leads_of_at {r : Routine} {name : Option String} {path : List Nat} {f : Function}
    (h : (r.function name).At path f) :
    ∃ name' r', Leads name r path.reverse name' r' ∧ f = r'.function name' := by
  induction h with
  | here => exact ⟨name, r, .here, rfl⟩
  | @inside path f g index _ hg ih =>
    obtain ⟨name', r', hleads, rfl⟩ := ih
    obtain ⟨d, hd, hindex, rfl⟩ := (r'.among name').found hg
    rw [Nat.zero_add] at hindex
    refine ⟨some d.name, d.routine, ?_, rfl⟩
    rw [List.reverse_cons, ← hindex]
    exact hleads.extend hd

end Routine

/-! ### Trees of texts -/

/-- Trees of the texts that compile, by their origins. -/
structure Archive (sources : Nat → String) where
  tree : Nat → Routine
  parsed : ∀ {origin : Nat} {script : Function}, compile (sources origin) = .ok script →
    Grammar.Program (Token.scan (sources origin)) (tree origin) ∧ (tree origin).Allowed none

/-- A value that is a function is one of the functions of the text that it comes from. -/
def Value.Produced (sources : Nat → String) (value : Value) : Prop :=
  ∀ id f, value = .function id f → ∃ script, compile (sources id.origin) = .ok script ∧ script.At id.path f

namespace Archive

variable {sources : Nat → String} {origin : Nat} {script : Function} {name : Option String} {r : Routine}
    {steps : List Nat}

/-- Every text that compiles has a tree. -/
theorem nonempty (sources : Nat → String) : Nonempty (Archive sources) := by
  have htrees : ∀ origin, ∃ program : Routine, ∀ script, compile (sources origin) = .ok script →
      Grammar.Program (Token.scan (sources origin)) program ∧ program.Allowed none := by
    intro origin
    cases hcompile : compile (sources origin) with
    | error diagnostics => exact ⟨⟨0, [], [], 0⟩, fun _ h => by cases h⟩
    | ok script =>
      obtain ⟨program, hprogram, hallowed, -⟩ := (compile_iff_program _ _).mp hcompile
      exact ⟨program, fun _ _ => ⟨hprogram, hallowed⟩⟩
  choose tree htree using htrees
  exact ⟨⟨tree, htree _ _⟩⟩

variable (A : Archive sources)

theorem legal_tree (h : compile (sources origin) = .ok script) : (A.tree origin).Legal none := by
  obtain ⟨hprogram, hallowed⟩ := A.parsed h
  obtain ⟨ds, last, -, -, htree⟩ := Grammar.program_iff.mp hprogram
  exact ⟨hallowed, fun _ => by rw [htree]⟩

theorem script_eq (h : compile (sources origin) = .ok script) : script = (A.tree origin).function none := by
  obtain ⟨hprogram, hallowed⟩ := A.parsed h
  have hcompile := (compile_iff_program (sources origin) _).mpr ⟨A.tree origin, hprogram, hallowed, rfl⟩
  rw [h] at hcompile
  exact Except.ok.inj hcompile

/-- The functions that the texts declare, each with the way to it from the text's tree. -/
structure Has (origin : Nat) (steps : List Nat) (name : Option String) (r : Routine) : Prop where
  compiles : ∃ script, compile (sources origin) = .ok script
  leads : (A.tree origin).Leads none steps name r

variable {A}

theorem Has.eq {name' : Option String} {r' : Routine} {steps' : List Nat} (h : A.Has origin steps name r)
    (h' : A.Has origin steps' name' r') (hplace : r.place = r'.place) : steps = steps' := by
  obtain ⟨script, hcompile⟩ := h.compiles
  exact h.leads.steps_unique (A.parsed hcompile).1.nodup h'.leads hplace

variable (A)

open Classical in
/-- The object of a declaration, by its origin and its place. -/
noncomputable def object (origin place : Nat) : ObjectId :=
  if h : ∃ steps name r, A.Has origin steps name r ∧ r.place = place then
    ⟨origin, h.choose.reverse⟩ else ⟨origin, []⟩

variable {A}

theorem Has.object_eq (h : A.Has origin steps name r) : A.object origin r.place = ⟨origin, steps.reverse⟩ := by
  have hexists : ∃ steps name r', A.Has origin steps name r' ∧ r'.place = r.place := ⟨steps, name, r, h, rfl⟩
  obtain ⟨name', r', h', hplace⟩ := hexists.choose_spec
  rw [object, dif_pos hexists, h'.eq h hplace]

variable (A)

/-- The library of all declarations of all texts. -/
noncomputable def library : Tree.Library where
  object := A.object
  Holds origin name r := ∃ steps, A.Has origin steps name r
  legal := by
    rintro origin name r ⟨steps, ⟨script, hcompile⟩, hleads⟩
    exact hleads.legal (A.legal_tree hcompile)
  injective := by
    rintro origin name r origin' name' r' ⟨steps, h⟩ ⟨steps', h'⟩ heq
    rw [h.object_eq, h'.object_eq] at heq
    obtain ⟨rfl, hsteps⟩ := ObjectId.mk.inj heq
    cases List.reverse_injective hsteps
    exact ⟨rfl, by rw [(h.leads.unique h'.leads).2]⟩
  inside := by
    rintro origin name r ⟨steps, h⟩ d hd
    have hinner : A.Has origin (steps ++ [d.index]) (some d.name) d.routine := ⟨h.compiles, h.leads.extend hd⟩
    refine ⟨⟨_, hinner⟩, ?_⟩
    rw [hinner.object_eq, h.object_eq, List.reverse_append]
    rfl

/-! ### Matching values -/

/-- A value of an evaluation matches one of the machine. A function matches a declaration if the way to the
    function through the constants leads to the declaration in the tree of the same text, and the function is
    what the declaration compiles to. -/
inductive Matches : Tree.Value → Value → Prop where
  | nil : Matches .nil .nil
  | bool (b : Bool) : Matches (.bool b) (.bool b)
  | number (x : Float) : Matches (.number x) (.number x)
  | string (s : String) : Matches (.string s) (.string s)
  | function {origin : Nat} {path : List Nat} {name : Option String} {r : Routine}
      (h : A.Has origin path.reverse name r) :
      Matches (.function origin name r) (.function ⟨origin, path⟩ (r.function name))
  | native (id : ObjectId) (n : Native) : Matches (.native id n) (.native id n)

variable {A} {v : Tree.Value} {w : Value}

theorem matches_iff : A.Matches v w ↔ v.Known A.library ∧ v.compiled A.library = w := by
  constructor
  · intro h
    cases h with
    | nil | bool | number | string | native => exact ⟨trivial, rfl⟩
    | @function origin path name r h =>
      have hobject : A.library.object origin r.place = ⟨origin, path⟩ := by
        rw [← List.reverse_reverse path]
        exact h.object_eq
      exact ⟨⟨_, h⟩, by rw [Tree.Value.compiled, hobject]⟩
  · rintro ⟨hknown, rfl⟩
    cases v with
    | nil => exact .nil
    | bool b => exact .bool b
    | number x => exact .number x
    | string s => exact .string s
    | native id n => exact .native id n
    | function origin name r =>
      obtain ⟨steps, h⟩ := hknown
      have hobject : A.library.object origin r.place = ⟨origin, steps.reverse⟩ := h.object_eq
      rw [Tree.Value.compiled, hobject]
      exact .function (by rw [List.reverse_reverse]; exact h)

/-- A function that was produced from a text matches a declaration. -/
theorem exists_matches (A : Archive sources) (h : w.Produced sources) : ∃ v, A.Matches v w := by
  cases w with
  | nil => exact ⟨_, .nil⟩
  | bool b => exact ⟨_, .bool b⟩
  | number x => exact ⟨_, .number x⟩
  | string s => exact ⟨_, .string s⟩
  | native id n => exact ⟨_, .native id n⟩
  | function id f =>
    obtain ⟨script, hcompile, hat⟩ := h id f rfl
    rw [A.script_eq hcompile] at hat
    obtain ⟨name, r, hleads, rfl⟩ := Routine.leads_of_at hat
    exact ⟨_, .function ⟨⟨script, hcompile⟩, hleads⟩⟩

variable (A)

/-- Globals of an evaluation match those of the machine if they have the same names and matching values. -/
def MatchesAll (globals : List (String × Tree.Value)) (entries : List (String × Value)) : Prop :=
  List.Forall₂ (fun a b => a.1 = b.1 ∧ A.Matches a.2 b.2) globals entries

/-- What comes of a routine of the host in an evaluation matches what comes of it in the machine: a matching
    value, or the same complaint. -/
inductive MatchesResult : Except String Tree.Value → Except String Value → Prop where
  | value {v : Tree.Value} {w : Value} (h : A.Matches v w) : MatchesResult (.ok v) (.ok w)
  | complaint (complaint : String) : MatchesResult (.error complaint) (.error complaint)

/-- The routines of the host do the same with matching arguments. -/
def Mirrors (host : Host) (natives : Tree.Host) : Prop :=
  ∀ routine arguments values, List.Forall₂ A.Matches arguments values →
    A.MatchesResult (natives routine arguments) (host routine values.toArray)

variable {A}

theorem forall₂_iff_map {α β : Type} {R : α → β → Prop} {P : α → Prop} {f : α → β}
    (h : ∀ a b, R a b ↔ P a ∧ f a = b)
    (l : List α) (u : List β) : List.Forall₂ R l u ↔ (∀ a ∈ l, P a) ∧ l.map f = u := by
  have hR : R = fun a b => P a ∧ f a = b := funext fun a => funext fun b => propext (h a b)
  have hmap : List.Forall₂ (fun a b => f a = b) l u ↔ l.map f = u := by
    rw [← List.forall₂_eq_eq_eq, List.forall₂_map_left_iff]
  rw [hR, List.forall₂_and_left, hmap]

theorem forall₂_matches {arguments : List Tree.Value} {values : List Value} :
    List.Forall₂ A.Matches arguments values ↔
    (∀ v ∈ arguments, v.Known A.library) ∧ arguments.map (·.compiled A.library) = values :=
  forall₂_iff_map (fun v w => matches_iff (v := v) (w := w)) arguments values

theorem matchesResult_iff {x : Except String Tree.Value} {y : Except String Value} :
    A.MatchesResult x y ↔ (∀ v, x = .ok v → v.Known A.library) ∧ y = x.map (·.compiled A.library) := by
  constructor
  · rintro (h | complaint)
    · obtain ⟨hknown, rfl⟩ := matches_iff.mp h
      exact ⟨fun v heq => Except.ok.inj heq ▸ hknown, rfl⟩
    · exact ⟨fun v heq => (by cases heq), rfl⟩
  · rintro ⟨hknown, rfl⟩
    cases x with
    | ok v => exact .value (matches_iff.mpr ⟨hknown v rfl, rfl⟩)
    | error complaint => exact .complaint complaint

theorem matchesAll_iff {globals : List (String × Tree.Value)} {entries : List (String × Value)} :
    A.MatchesAll globals entries ↔ (∀ entry ∈ globals, entry.2.Known A.library) ∧
      globals.map (fun entry => (entry.1, entry.2.compiled A.library)) = entries := by
  refine forall₂_iff_map (fun a b => ?_) globals entries
  rw [matches_iff, Prod.ext_iff]
  exact and_left_comm

/-- Globals whose functions were all produced from the texts match globals of an evaluation. -/
theorem exists_matchesAll (A : Archive sources) {entries : List (String × Value)}
    (h : ∀ entry ∈ entries, entry.2.Produced sources) :
    ∃ globals, A.MatchesAll globals entries := by
  induction entries with
  | nil => exact ⟨[], .nil⟩
  | cons entry entries ih =>
    obtain ⟨hentry, hentries⟩ := List.forall_mem_cons.mp h
    obtain ⟨v, hv⟩ := exists_matches A hentry
    obtain ⟨globals, hglobals⟩ := ih hentries
    exact ⟨(entry.1, v) :: globals, .cons ⟨rfl, hv⟩ hglobals⟩

/-- A host that makes no functions can do the same with the values of evaluations. -/
theorem exists_mirrors (A : Archive sources) {host : Host} (h : host.Faithful) :
    ∃ natives, A.Mirrors host natives := by
  have hresults : ∀ routine (arguments : List Tree.Value), ∃ result, (∀ v ∈ arguments, v.Known A.library) →
      A.MatchesResult result (host routine (arguments.map (·.compiled A.library)).toArray) := by
    intro routine arguments
    cases hresult : host routine (arguments.map (·.compiled A.library)).toArray with
    | error complaint => exact ⟨_, fun _ => .complaint complaint⟩
    | ok w =>
      cases w with
      | nil => exact ⟨_, fun _ => .value .nil⟩
      | bool b => exact ⟨_, fun _ => .value (.bool b)⟩
      | number x => exact ⟨_, fun _ => .value (.number x)⟩
      | string s => exact ⟨_, fun _ => .value (.string s)⟩
      | native id n => exact ⟨_, fun _ => .value (.native id n)⟩
      | function id f =>
        -- A function is one of the arguments.
        have hmem := h _ _ _ hresult id f rfl
        obtain ⟨v, hv, heq⟩ := List.mem_map.mp (List.mem_toArray.mp hmem)
        exact ⟨.ok v, fun hknown => .value (matches_iff.mpr ⟨hknown v hv, heq⟩)⟩
  choose natives hnatives using hresults
  refine ⟨natives, fun routine arguments values hmatches => ?_⟩
  obtain ⟨hknown, rfl⟩ := forall₂_matches.mp hmatches
  exact hnatives routine arguments hknown

end Archive

end Lox
