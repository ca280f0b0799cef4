import Lox.Proofs.Sequence.Program
import Lox.Proofs.Sequence.Tandem

/-! # The code of a script inside a longer one

A script whose code and constants are those of another, some bytes and some constants later, runs
in tandem with it. -/

namespace Lox

/-! ### Constants -/

/-- The constants of one function are those of another, `k` places later. -/
structure Function.Inside (M : Matching) (k : Nat) (i j : ObjectId) (f g : Function) : Prop where
  constants : ∀ {index : Nat} {c : Constant}, f.chunk.constants[index]? = some c →
    ∃ c', g.chunk.constants[index + k]? = some c' ∧ c.unlined = c'.unlined
  holds : ∀ {index : Nat} {f' g' : Function}, f.chunk.constants[index]? = some (.function f') →
    f'.unlined = g'.unlined → M.Holds (i.child index) f' (j.child (index + k)) g'
  native : ∀ n, .native n ∉ f.chunk.constants
  room : g.chunk.constants.length ≤ Chunk.maxConstants

section

variable {M : Matching} {k : Nat} {id id' : ObjectId} {f g : Function}

theorem Function.Inside.constant? (h : Function.Inside M k id id' f g) {index : UInt8} {c : Constant}
    (hc : f.chunk.constant? index = some c) : (index + operandByte k).toNat = index.toNat + k ∧
      ∃ c', g.chunk.constant? (index + operandByte k) = some c' ∧ c.unlined = c'.unlined := by
  obtain ⟨c', hc', hunlined⟩ := h.constants hc
  have hlt : index.toNat + k < 256 := Nat.lt_of_lt_of_le (List.getElem?_eq_some_iff.mp hc').1 h.room
  have htoNat : (index + operandByte k).toNat = index.toNat + k := by
    rw [UInt8.toNat_add, toNat_operandByte (Nat.lt_of_le_of_lt (Nat.le_add_left k _) hlt), Nat.mod_eq_of_lt hlt]
  refine ⟨htoNat, c', ?_, hunlined⟩
  rw [Chunk.constant?, htoNat]
  exact hc'

/-- Names are the same. -/
theorem Function.Inside.name (h : Function.Inside M k id id' f g) {index : UInt8}
    (hname : ∃ name, f.chunk.constant? index = some (.string name)) (ip ip' : Nat) :
    Frame.name ⟨id, f, ip, 0⟩ index = Frame.name ⟨id', g, ip', 0⟩ (index + operandByte k) := by
  obtain ⟨name, hc⟩ := hname
  obtain ⟨-, c', hc', hunlined⟩ := h.constant? hc
  rcases Constant.unlined_cases hunlined with ⟨rfl, -⟩ | ⟨_, _, -, hfunction, -⟩
  · rw [Frame.name, Frame.name, hc, hc']
  · cases hfunction

theorem Function.Inside.corresponds (h : Function.Inside M k id id' f g) {i : Instruction} {offset height : Nat}
    (hoperands : i.OperandsFit f.chunk offset height) (ip ip' : Nat) :
    i.Corresponds M ⟨id, f, ip, 0⟩ ⟨id', g, ip', 0⟩ (i.shifted k) := by
  cases i with
  | constant index =>
    obtain ⟨c, hc⟩ := hoperands
    obtain ⟨htoNat, c', hc', hunlined⟩ := h.constant? hc
    have hv : Frame.constant? ⟨id, f, ip, 0⟩ index = some (c.load (id.child index.toNat)) := by
      rw [Frame.constant?, hc]
      rfl
    have hw : Frame.constant? ⟨id', g, ip', 0⟩ (index + operandByte k) =
        some (c'.load (id'.child (index.toNat + k))) := by
      rw [Frame.constant?, hc', htoNat]
      rfl
    refine .constant hv hw ?_
    rcases Constant.unlined_cases hunlined with ⟨rfl, hc''⟩ | ⟨f', g', hfunctions, rfl, rfl⟩
    · cases c with
      | function f' => exact absurd rfl (hc'' f')
      | native n => exact absurd (List.mem_of_getElem? hc) (h.native n)
      | nil | bool | number | string => exact .same fun _ _ heq => by cases heq
    · exact .function (h.holds hc hfunctions)
  | getGlobal index => exact .getGlobal (h.name hoperands ip ip')
  | defineGlobal index => exact .defineGlobal (h.name hoperands ip ip')
  | setGlobal index => exact .setGlobal (h.name hoperands ip ip')
  | _ => exact .same rfl

end

/-! ### Code -/

theorem Instruction.size_shifted (i : Instruction) (k : Nat) : (i.shifted k).size = i.size := by
  cases i <;> rfl

namespace Fragment

variable {P : Nat → Item → Prop} {x y z : Fragment} {place k d : Nat} {line : UInt32}

theorem along_shifted : (x.shifted k).Along P place ↔
    x.Along (fun offset item => P offset ⟨0, item.height, item.instruction.shifted k⟩) place := by
  obtain ⟨items, constants⟩ := x
  unfold Along
  show Item.Along P place (items.map _) ↔ _
  induction items generalizing place with
  | nil => exact Iff.rfl
  | cons item items ih =>
    rw [List.map_cons, Item.Along, Item.Along, ih, Item.size, Instruction.size_shifted]

theorem along_add : x.Along P (place + d) ↔ x.Along (fun offset item => P (offset + d) item) place := by
  obtain ⟨items, constants⟩ := x
  unfold Along
  induction items generalizing place with
  | nil => exact Iff.rfl
  | cons item items ih => rw [Item.Along, Item.Along, Nat.add_right_comm, ih]

theorem along_of_forall (h : ∀ offset, ∀ item ∈ x.items, P offset item) : x.Along P place := by
  obtain ⟨items, constants⟩ := x
  unfold Along
  induction items generalizing place with
  | nil => trivial
  | cons item items ih =>
    exact ⟨h place item List.mem_cons_self,
      ih fun offset other hother => h offset other (List.mem_cons_of_mem _ hother)⟩

theorem along_size : x.Along (fun offset item => offset + item.size ≤ place + x.size) place := by
  obtain ⟨items, constants⟩ := x
  unfold Along
  induction items generalizing place with
  | nil => trivial
  | cons item items ih =>
    have hsize : (⟨item :: items, constants⟩ : Fragment).size =
        item.size + (⟨items, constants⟩ : Fragment).size := by
      simp [size]
    rw [hsize, ← Nat.add_assoc]
    exact ⟨Nat.le_add_right _ _, ih⟩

theorem along_ended : (x.ended line).Along P 0 ↔ x.Along P 0 ∧ P x.size ⟨line, 1, .nil⟩ ∧
    P (x.size + 1) ⟨line, 2, .ret⟩ := by
  rw [ended, along_append, along_append, along_single, along_single, size_append, size_single, Nat.zero_add,
    Nat.zero_add, and_assoc]
  rfl

theorem size_shifted (x : Fragment) (k : Nat) : (x.shifted k).size = x.size := by
  simp [size, shifted, Function.comp_def, Instruction.size_shifted]

end Fragment

/-- An instruction that neither takes the value in the slot of the script nor refers to it. -/
structure Item.SparesScript (item : Item) : Prop where
  takes : 1 + item.instruction.takes ≤ item.height
  slot : ∀ slot, item.instruction = .getLocal slot ∨ item.instruction = .setLocal slot → slot ≠ 0

theorem Fragment.Clear.spares {x : Fragment} (h : x.Clear 1) : ∀ item ∈ x.items, item.SparesScript := by
  intro item hitem
  obtain ⟨⟨-, hget, hset⟩, htakes⟩ := h item hitem
  refine ⟨htakes, ?_⟩
  rintro slot (hslot | hslot) rfl
  · exact hget hslot
  · exact hset hslot

theorem Fragment.Clear.spares_ended {x : Fragment} (h : x.Clear 1) (line : UInt32) :
    ∀ item ∈ (x.ended line).items, item.SparesScript := by
  refine List.forall_mem_append.mpr ⟨List.forall_mem_append.mpr ⟨h.spares, ?_⟩, ?_⟩ <;>
    refine List.forall_mem_singleton.mpr ⟨Nat.le_refl _, fun slot hslot => ?_⟩ <;>
    rcases hslot with hslot | hslot <;> cases hslot

theorem Fragment.IsBody.constants {x : Fragment} {f : Function} (h : x.IsBody f) :
    f.chunk.constants = x.constants := by
  obtain ⟨line, hmakes⟩ := h.makes
  rw [hmakes.chunk]
  simp [Fragment.ended]

namespace Machine.Tandem

variable {M : Matching} {t : Tandem} {x : Fragment} {depth : Nat → Option Nat} {k : Nat}

/-- Code of the first script that stands, with later constants, in the second. -/
theorem matches_along (hinside : Function.Inside M k t.id t.id' t.script t.script')
    (hread : x.Along (fun offset item => Instruction.read t.script.chunk.code offset =
      .instruction item.instruction) 0)
    (hread' : (x.shifted k).Along (fun offset item =>
      Instruction.read t.script'.chunk.code offset = .instruction item.instruction) t.ahead)
    (hflows : x.Flows t.script.chunk depth 0)
    (hspares : ∀ item ∈ x.items, item.SparesScript)
    (hnext : x.Along (fun offset item => t.Good (offset + item.size)) 0)
    (hleads : x.Along (fun offset item => ∀ place ∈ item.instruction.leads offset, t.Good place) 0) :
    x.Along (t.Matches M) 0 := by
  rw [← Nat.zero_add t.ahead, Fragment.along_shifted, Fragment.along_add] at hread'
  have hall :=
    (((((hread.and hread').and hflows).and (Fragment.along_of_forall fun _ => hspares)).and hnext).and hleads)
  refine hall.mono fun offset item h => ?_
  obtain ⟨⟨⟨⟨⟨hread, hread'⟩, hflows⟩, hspares⟩, hnext⟩, hleads⟩ := h
  refine ⟨hread, ⟨_, hread', Instruction.size_shifted _ _,
    fun ip ip' => hinside.corresponds hflows.operands ip ip'⟩,
    hspares.takes, hspares.slot, hnext, hleads, fun distance hloop => ?_⟩
  have hoperands := hflows.operands
  rw [hloop] at hoperands
  exact hoperands.1

end Machine.Tandem

/-! ### Objects -/

/-- What the objects of two scripts, the first of which has `count` constants, are in the script
    that is both of them. -/
inductive ObjectId.Becomes (origin count : Nat) : ObjectId → ObjectId → Prop
  | old {id : ObjectId} (h : id.origin ≠ origin) (h' : id.origin ≠ origin + 1) : Becomes origin count id id
  | first {index : Nat} (inner : List Nat) (h : index < count) :
    Becomes origin count ⟨origin, inner ++ [index]⟩ ⟨origin, inner ++ [index]⟩
  | second {index : Nat} (inner : List Nat) :
    Becomes origin count ⟨origin + 1, inner ++ [index]⟩ ⟨origin, inner ++ [index + count]⟩

section

variable {origin count : Nat} {i j i' j' : ObjectId}

theorem ObjectId.Becomes.child (h : i.Becomes origin count j) (index : Nat) :
    (i.child index).Becomes origin count (j.child index) := by
  cases h with
  | old h h' => exact .old h h'
  | first inner h => exact .first (index :: inner) h
  | second inner => exact .second (index :: inner)

theorem ObjectId.Becomes.injective (h : i.Becomes origin count j) (h' : i'.Becomes origin count j') :
    i = i' ↔ j = j' := by
  cases h with
  | old h₁ h₂ =>
    cases h' with
    | old => exact Iff.rfl
    | first =>
      refine iff_of_false (fun heq => h₁ ?_) fun heq => h₁ ?_ <;> rw [heq]
    | second =>
      refine iff_of_false (fun heq => h₂ ?_) fun heq => h₁ ?_ <;> rw [heq]
  | first inner hlt =>
    cases h' with
    | old h₁ h₂ => refine iff_of_false (fun heq => h₁ ?_) fun heq => h₁ ?_ <;> rw [← heq]
    | first => exact Iff.rfl
    | second =>
      refine iff_of_false (fun heq => ?_) fun heq => ?_
      · simp at heq
      · simp at heq
        omega
  | second inner =>
    cases h' with
    | old h₁ h₂ => refine iff_of_false (fun heq => h₂ ?_) fun heq => h₁ ?_ <;> rw [← heq]
    | first inner' hlt =>
      refine iff_of_false (fun heq => ?_) fun heq => ?_
      · simp at heq
      · simp at heq
        omega
    | second => simp

end

/-- Functions of two scripts and the same ones in the script that is both of them. -/
def Matching.sequence (origin count : Nat) : Matching where
  Holds i f j g := f.Compiled ∧ f.unlined = g.unlined ∧ i.Becomes origin count j
  unlined h := h.2.1
  inside := by
    rintro i f j g k f' g' ⟨hf, hunlined, hbecomes⟩ hf' hg'
    refine ⟨hf.constant (List.mem_of_getElem? hf'), ?_, hbecomes.child k⟩
    rcases Function.constants_cases hunlined k with ⟨hnone, -⟩ | ⟨c, hc, hsome, -⟩ |
      ⟨f'', g'', hsame, hsome, hsome'⟩
    · cases hnone.symm.trans hf'
    · cases hsome.symm.trans hf'
      exact absurd rfl (hc f')
    · cases hsome.symm.trans hf'
      cases hsome'.symm.trans hg'
      exact hsame
  native h hn := absurd hn (h.1.written.native_not_mem _)
  injective h h' := h.2.2.injective h'.2.2

/-! ### Scripts one after the other -/

namespace Bodies

variable {first second whole : Function} {x y z : Fragment} {line : UInt32}

/-- The reader finds the code of both scripts in the whole. -/
theorem reads (h : Bodies first second whole x y z) (line : UInt32) :
    (x.shifted 0 ++ (y.ended line).shifted x.constants.length).Along (fun offset item =>
      Instruction.read whole.chunk.code offset = .instruction item.instruction) 0 := by
  obtain ⟨line', hmakes⟩ := h.whole.makes
  have hcode : (z.ended line').shifted 0 = x.shifted 0 ++ (y.ended line).shifted x.constants.length := by
    simp only [Fragment.ended, Fragment.shifted_append, h.code, Fragment.append_assoc]
    rfl
  have hread := Item.along_read ((z.ended line').shifted 0).items
  rw [← hcode, hmakes.chunk]
  dsimp only
  rw [← Fragment.bytes_shifted_zero]
  exact hread

theorem constants (h : Bodies first second whole x y z) : whole.chunk.constants.map Constant.unlined =
    x.constants.map Constant.unlined ++ y.constants.map Constant.unlined := by
  rw [h.whole.constants]
  exact congrArg Fragment.constants h.code

theorem inside_first (h : Bodies first second whole x y z) (hfirst : first.Compiled) (origin : Nat) :
    Function.Inside (Matching.sequence origin x.constants.length) 0 ⟨origin, []⟩ ⟨origin, []⟩ first whole where
  constants {index c} hc := by
    rw [h.first.constants] at hc
    have hlt := (List.getElem?_eq_some_iff.mp hc).1
    have hwhole : (whole.chunk.constants.map Constant.unlined)[index]? = some c.unlined := by
      rw [h.constants, List.getElem?_append_left (by rwa [List.length_map]), List.getElem?_map, hc]
      rfl
    rw [List.getElem?_map] at hwhole
    obtain ⟨c', hc', hsame⟩ := Option.map_eq_some_iff.mp hwhole
    exact ⟨c', hc', hsame.symm⟩
  holds {index f' g'} hf' hsame := by
    refine ⟨hfirst.constant (List.mem_of_getElem? hf'), hsame, ?_⟩
    rw [h.first.constants] at hf'
    exact .first [] (List.getElem?_eq_some_iff.mp hf').1
  native n := hfirst.written.native_not_mem n
  room := by
    obtain ⟨line, hmakes⟩ := h.whole.makes
    exact hmakes.room

theorem inside_second (h : Bodies first second whole x y z) (hsecond : second.Compiled) (origin : Nat) :
    Function.Inside (Matching.sequence origin x.constants.length) x.constants.length ⟨origin + 1, []⟩ ⟨origin,
      []⟩ second
      whole where
  constants {index c} hc := by
    rw [h.second.constants] at hc
    have hwhole : (whole.chunk.constants.map Constant.unlined)[index + x.constants.length]? =
        some c.unlined := by
      rw [h.constants, List.getElem?_append_right (by rw [List.length_map]; exact Nat.le_add_left _ _),
        List.length_map, Nat.add_sub_cancel, List.getElem?_map, hc]
      rfl
    rw [List.getElem?_map] at hwhole
    obtain ⟨c', hc', hsame⟩ := Option.map_eq_some_iff.mp hwhole
    exact ⟨c', hc', hsame.symm⟩
  holds {index f' g'} hf' hsame := ⟨hsecond.constant (List.mem_of_getElem? hf'), hsame, .second []⟩
  native n := hsecond.written.native_not_mem n
  room := by
    obtain ⟨line, hmakes⟩ := h.whole.makes
    exact hmakes.room

/-- The first script, up to its end, and the whole. -/
def before (origin : Nat) (first whole : Function) (x : Fragment) : Machine.Tandem :=
  ⟨⟨origin, []⟩, ⟨origin, []⟩, first, whole, 0, (· ≤ x.size)⟩

/-- The second script and the whole, after the code of the first. -/
def after (origin : Nat) (second whole : Function) (x : Fragment) : Machine.Tandem :=
  ⟨⟨origin + 1, []⟩, ⟨origin, []⟩, second, whole, x.size, Machine.anywhere⟩

theorem matches_before (h : Bodies first second whole x y z) (hfirst : first.Compiled) (origin : Nat) :
    x.Along (fun offset item =>
      (before origin first whole x).Matches (Matching.sequence origin x.constants.length) offset item ∧
        item.instruction ≠ .ret) 0 := by
  obtain ⟨line, hmakes⟩ := h.first.makes
  have hread := (Fragment.along_append.mp (Fragment.along_append.mp hmakes.reads).1).1
  have hflows := (Fragment.flows_append.mp (Fragment.flows_append.mp hmakes.flows).1).1
  have hwhole := (Fragment.along_append.mp (h.reads 0)).1
  have hsize : x.Along (fun offset item => offset + item.size ≤ x.size) 0 := by
    have hsize := @Fragment.along_size x 0
    rwa [Nat.zero_add] at hsize
  have hmatches :
      x.Along ((before origin first whole x).Matches (Matching.sequence origin x.constants.length)) 0 :=
    Machine.Tandem.matches_along (h.inside_first hfirst origin) hread hwhole hflows h.clear.spares hsize
      h.closed
  exact hmatches.and (Fragment.along_of_forall fun _ item hitem => (h.clear item hitem).1.1)

theorem matches_after (h : Bodies first second whole x y z) (hsecond : second.Compiled) (origin : Nat)
    (hmakes : (y.ended line).Makes second) :
    (y.ended line).Along ((after origin second whole x).Matches (Matching.sequence origin x.constants.length))
      0 := by
  have hwhole := (Fragment.along_append.mp (h.reads line)).2
  rw [Fragment.size_shifted, Nat.zero_add] at hwhole
  exact Machine.Tandem.matches_along (h.inside_second hsecond origin) hmakes.reads hwhole hmakes.flows
    (h.clear'.spares_ended line) (Fragment.along_of_forall fun _ _ _ => trivial)
    (Fragment.along_of_forall fun _ _ _ _ _ => trivial)

end Bodies

end Lox
