import Mathlib.Data.List.Forall2
import Lox.Machine

/-! # Likeness

Two runs can bring in the same functions as different objects, whose line tables may differ. A program
cannot tell: values are alike if they are equal or are functions that a matching holds to be the same, and
whatever a program does with values gives like results for like values. The host is trusted to treat
functions in the same way. -/

namespace Lox

/-! ### Functions without their lines -/

mutual

/-- A function without its line tables and those of the functions inside it. -/
def Function.unlined : Function → Function
  | ⟨arity, chunk, name⟩ => ⟨arity, chunk.unlined, name⟩

def Chunk.unlined : Chunk → Chunk
  | ⟨code, _, constants⟩ => ⟨code, #[], Constant.unlinedAll constants⟩

def Constant.unlinedAll : List Constant → List Constant
  | [] => []
  | constant :: constants => constant.unlined :: Constant.unlinedAll constants

def Constant.unlined : Constant → Constant
  | .function f => .function f.unlined
  | constant => constant

end

theorem Constant.unlinedAll_eq (constants : List Constant) : unlinedAll constants = constants.map unlined := by
  induction constants with
  | nil => rfl
  | cons constant constants ih => rw [unlinedAll, ih, List.map_cons]

/-- Constants that are equal without their lines are equal, or they are functions. -/
theorem Constant.unlined_cases {c d : Constant} (h : c.unlined = d.unlined) :
    (c = d ∧ ∀ f, c ≠ .function f) ∨ ∃ f g, f.unlined = g.unlined ∧ c = .function f ∧ d = .function g := by
  cases c with
  | function f =>
    cases d with
    | function g => exact .inr ⟨f, g, Constant.function.inj h, rfl, rfl⟩
    | nil | bool | number | string | native => cases h
  | nil | bool | number | string | native =>
    left
    refine ⟨?_, fun f heq => by cases heq⟩
    cases d with
    | function g => cases h
    | nil | bool | number | string | native => exact h

section

variable {f g : Function}

theorem Function.unlined_eq_iff : f.unlined = g.unlined ↔ f.arity = g.arity ∧ f.name = g.name ∧
    f.chunk.code = g.chunk.code ∧ f.chunk.constants.map Constant.unlined =
      g.chunk.constants.map Constant.unlined := by
  obtain ⟨arity, ⟨code, lines, constants⟩, name⟩ := f
  obtain ⟨arity', ⟨code', lines', constants'⟩, name'⟩ := g
  simp only [unlined, Chunk.unlined, Constant.unlinedAll_eq, Function.mk.injEq, Chunk.mk.injEq]
  tauto

theorem Function.frameName_of_unlined (h : f.unlined = g.unlined) : f.frameName = g.frameName := by
  rw [frameName, frameName, (unlined_eq_iff.mp h).2.1]

theorem Function.text_of_unlined (h : f.unlined = g.unlined) : f.text = g.text := by
  rw [Function.text, Function.text, (unlined_eq_iff.mp h).2.1]

/-- The constants of functions that are equal without their lines: both are missing, or they are equal, or
    they are functions that are equal without their lines. -/
theorem Function.constants_cases (h : f.unlined = g.unlined) (k : Nat) :
    (f.chunk.constants[k]? = none ∧ g.chunk.constants[k]? = none) ∨
    (∃ c, (∀ f', c ≠ .function f') ∧ f.chunk.constants[k]? = some c ∧ g.chunk.constants[k]? = some c) ∨
    ∃ f' g', f'.unlined = g'.unlined ∧ f.chunk.constants[k]? = some (.function f') ∧
      g.chunk.constants[k]? = some (.function g') := by
  have hall : (f.chunk.constants[k]?).map Constant.unlined = (g.chunk.constants[k]?).map Constant.unlined := by
    rw [← List.getElem?_map, ← List.getElem?_map, (unlined_eq_iff.mp h).2.2.2]
  rcases hf : f.chunk.constants[k]? with _ | c <;> rcases hg : g.chunk.constants[k]? with _ | d <;>
    rw [hf, hg] at hall
  · exact .inl ⟨rfl, rfl⟩
  · cases hall
  · cases hall
  · right
    rcases Constant.unlined_cases (Option.some.inj hall) with ⟨rfl, hc⟩ | ⟨f', g', heq, rfl, rfl⟩
    · exact .inl ⟨c, hc, rfl, rfl⟩
    · exact .inr ⟨f', g', heq, rfl, rfl⟩

end

/-! ### Matchings -/

/-- Which functions of one run are which functions of another. They are equal without their lines, so are the
    functions inside them, and an object of one run is one object of the other. A routine of the host is the
    same object in both. -/
structure Matching where
  Holds : ObjectId → Function → ObjectId → Function → Prop
  unlined : ∀ {i f j g}, Holds i f j g → f.unlined = g.unlined
  inside : ∀ {i f j g k f' g'}, Holds i f j g → f.chunk.constants[k]? = some (.function f') →
    g.chunk.constants[k]? = some (.function g') → Holds (i.child k) f' (j.child k) g'
  native : ∀ {i f j g n}, Holds i f j g → .native n ∈ f.chunk.constants → i = j
  injective : ∀ {i f j g i' f' j' g'}, Holds i f j g → Holds i' f' j' g' → (i = i' ↔ j = j')

/-- Values that a program cannot tell apart. -/
inductive Value.Like (M : Matching) : Value → Value → Prop
  | same {v : Value} (h : ∀ id f, v ≠ .function id f) : Like M v v
  | function {i j : ObjectId} {f g : Function} (h : M.Holds i f j g) : Like M (.function i f) (.function j g)

variable {M : Matching}

namespace Value

variable {v w v' w' : Value}

theorem like_nil : nil.Like M nil := .same fun _ _ heq => by cases heq

theorem like_bool (b : Bool) : (bool b).Like M (bool b) := .same fun _ _ heq => by cases heq

theorem like_number (x : Float) : (number x).Like M (number x) := .same fun _ _ heq => by cases heq

theorem like_string (s : String) : (string s).Like M (string s) := .same fun _ _ heq => by cases heq

theorem Like.text_eq (h : v.Like M w) : w.text = v.text := by
  cases h with
  | same => rfl
  | function h => exact (Function.text_of_unlined (M.unlined h)).symm

theorem Like.isFalsy_eq (h : v.Like M w) : w.isFalsy = v.isFalsy := by
  cases h <;> rfl

/-- Objects are equal if they are the same, and what is matched with the same is the same. -/
theorem Like.equal_eq (h : v.Like M w) (h' : v'.Like M w') : w.equal w' = v.equal v' := by
  cases h with
  | same hv =>
    cases h' with
    | same => rfl
    | function h' =>
      cases v with
      | function id f => exact absurd rfl (hv id f)
      | nil | bool | number | string | native => rfl
  | function h =>
    cases h' with
    | same hv' =>
      cases v' with
      | function id f => exact absurd rfl (hv' id f)
      | nil | bool | number | string | native => rfl
    | function h' =>
      rw [equal, equal, Bool.eq_iff_iff, beq_iff_eq, beq_iff_eq]
      exact (M.injective h h').symm

end Value

/-- Results that are alike: like values, or the same error. -/
inductive Value.LikeResult {ε : Type} (M : Matching) : Except ε Value → Except ε Value → Prop
  | ok {v w : Value} (h : v.Like M w) : LikeResult M (.ok v) (.ok w)
  | error (e : ε) : LikeResult M (.error e) (.error e)

/-- Optional values that are alike: like values, or none. -/
inductive Value.LikeOption (M : Matching) : Option Value → Option Value → Prop
  | none : LikeOption M none none
  | some {v w : Value} (h : v.Like M w) : LikeOption M (some v) (some w)

/-- The constants of matched functions are alike as values. -/
theorem Matching.constant? {i j : ObjectId} {f g : Function} (h : M.Holds i f j g) (index : UInt8)
    (ip ip' slots slots' : Nat) :
    Value.LikeOption M (Frame.constant? ⟨i, f, ip, slots⟩ index)
      (Frame.constant? ⟨j, g, ip', slots'⟩ index) := by
  simp only [Frame.constant?, Chunk.constant?]
  rcases Function.constants_cases (M.unlined h) index.toNat with ⟨hf, hg⟩ | ⟨c, hc, hf, hg⟩ |
    ⟨f', g', -, hf, hg⟩ <;> rw [hf, hg]
  · exact .none
  · refine .some ?_
    cases c with
    | function f' => exact absurd rfl (hc f')
    | nil | bool | number | string => exact .same fun _ _ heq => by cases heq
    | native n =>
      rw [M.native h (List.mem_of_getElem? hf)]
      exact .same fun _ _ heq => by cases heq
  · exact .some (.function (M.inside h hf hg))

/-- Matched functions name globals alike. -/
theorem Matching.name {i j : ObjectId} {f g : Function} (h : M.Holds i f j g) (index : UInt8)
    (ip ip' slots slots' : Nat) :
    Frame.name ⟨i, f, ip, slots⟩ index = Frame.name ⟨j, g, ip', slots'⟩ index := by
  simp only [Frame.name, Chunk.constant?]
  rcases Function.constants_cases (M.unlined h) index.toNat with ⟨hf, hg⟩ | ⟨c, -, hf, hg⟩ |
    ⟨f', g', -, hf, hg⟩ <;> rw [hf, hg]
  rfl

/-! ### Globals -/

namespace Globals

/-- The same names in the same order, with values that are alike. -/
def Like (M : Matching) (a b : Globals) : Prop :=
  List.Forall₂ (fun x y => x.1 = y.1 ∧ x.2.Like M y.2) a.entries b.entries

variable {a b : Globals} {v w : Value} {name : String}

theorem Like.get? (h : a.Like M b) (name : String) : Value.LikeOption M (a.get? name) (b.get? name) := by
  unfold Like at h
  simp only [Globals.get?]
  generalize a.entries = entries, b.entries = entries' at h
  induction h with
  | nil => exact .none
  | @cons x y xs ys hentry _ ih =>
    obtain ⟨hname, hvalue⟩ := hentry
    rw [List.lookup_cons, List.lookup_cons, hname]
    cases name == y.1 with
    | true => exact .some hvalue
    | false => exact ih

theorem Like.contains_eq (h : a.Like M b) (name : String) : b.contains name = a.contains name := by
  have hget := h.get? name
  unfold Globals.contains
  generalize a.get? name = x, b.get? name = y at hget
  cases hget <;> rfl

theorem Like.overwrite (h : a.Like M b) (name : String) (hvalue : v.Like M w) :
    (a.overwrite name v).Like M (b.overwrite name w) := by
  unfold Like Globals.overwrite
  rw [List.forall₂_map_left_iff, List.forall₂_map_right_iff]
  refine List.Forall₂.imp ?_ h
  rintro x y ⟨hname, hentry⟩
  rw [← hname]
  split
  · exact ⟨rfl, hvalue⟩
  · exact ⟨hname, hentry⟩

theorem Like.define (h : a.Like M b) (name : String) (hvalue : v.Like M w) :
    (a.define name v).Like M (b.define name w) := by
  unfold Globals.define
  rw [h.contains_eq]
  split
  · exact h.overwrite name hvalue
  · exact List.rel_append h (.cons ⟨rfl, hvalue⟩ .nil)

theorem Like.assign? (h : a.Like M b) (name : String) (hvalue : v.Like M w) :
    (a.assign? name v = none ∧ b.assign? name w = none) ∨
      ∃ a' b', a.assign? name v = some a' ∧ b.assign? name w = some b' ∧ a'.Like M b' := by
  unfold Globals.assign?
  rw [h.contains_eq]
  split
  · exact .inr ⟨_, _, rfl, rfl, h.overwrite name hvalue⟩
  · exact .inl ⟨rfl, rfl⟩

end Globals

/-! ### The host -/

/-- The routines of two hosts give like results for like arguments. -/
def Host.Like (M : Matching) (host host' : Host) : Prop :=
  ∀ routine a b, List.Forall₂ (Value.Like M) a.toList b.toList →
    Value.LikeResult M (host routine a) (host' routine b)

/-- At every step the routines give like results for like arguments. -/
def Hosts.Respects (M : Matching) (hosts : Hosts) : Prop :=
  ∀ step, (hosts.during step).Like M (hosts.during step)

/-- The routines give like results for like arguments, and do so at whatever steps. -/
def Hosts.Steady (M : Matching) (hosts : Hosts) : Prop :=
  ∀ step step', (hosts.during step).Like M (hosts.during step')

theorem Host.like_standard (M : Matching) (now : Float) : (Host.standard now).Like M (Host.standard now) := by
  intro routine a b _
  unfold Host.standard
  split
  · exact .ok (Value.like_number now)
  · exact .error _

end Lox
