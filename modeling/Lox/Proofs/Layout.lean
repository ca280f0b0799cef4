import Lox.Proofs.Rules

/-! # Code in place

Where the instructions of a fragment stand in the code of a function. A property of places and instructions
holds along some code if it holds of every instruction at the place where it stands; along the whole code of a
function, what the reader finds at a place is the instruction there. -/

namespace Lox

theorem toNat_operandByte {n : Nat} (h : n < 256) : (operandByte n).toNat = n := UInt8.toNat_ofNat_of_lt' h

theorem toNat_operandWord {n : Nat} (h : n ≤ Compiler.maxJump) : (operandWord n).toNat = n :=
  UInt16.toNat_ofNat_of_lt' (Nat.lt_of_le_of_lt h (by decide))

namespace Instruction

@[simp] theorem size_pop : pop.size = 1 := rfl

@[simp] theorem size_jump (distance : UInt16) : (jump distance).size = 3 := rfl

@[simp] theorem size_jumpIfFalse (distance : UInt16) : (jumpIfFalse distance).size = 3 := rfl

@[simp] theorem size_loop (distance : UInt16) : (loop distance).size = 3 := rfl

@[simp] theorem size_call (count : UInt8) : (call count).size = 2 := rfl

end Instruction

/-! ### Along code -/

/-- The number of bytes of an instruction with its annotations. -/
abbrev Item.size (item : Item) : Nat := item.instruction.size

/-- A property holds of all instructions, from a place on, where they stand. -/
def Item.Along (P : Nat → Item → Prop) : Nat → List Item → Prop
  | _, [] => True
  | place, item :: items => P place item ∧ Along P (place + item.size) items

namespace Fragment

/-- A property holds along a fragment that stands at a place. -/
def Along (P : Nat → Item → Prop) (place : Nat) (f : Fragment) : Prop := Item.Along P place f.items

variable {P Q : Nat → Item → Prop} {place : Nat} {f g : Fragment}

theorem along_append : (f ++ g).Along P place ↔ f.Along P place ∧ g.Along P (place + f.size) := by
  obtain ⟨items, constants⟩ := f
  unfold Along
  rw [items_append]
  induction items generalizing place with
  | nil => simp [Item.Along, size]
  | cons item items ih =>
    have hsize : (⟨item :: items, constants⟩ : Fragment).size =
        item.size + (⟨items, constants⟩ : Fragment).size := by
      simp [size]
    rw [List.cons_append, Item.Along, Item.Along, hsize, ih, and_assoc, Nat.add_assoc]

@[simp] theorem along_empty : Along P place {} ↔ True := Iff.rfl

@[simp] theorem along_pool {constant : Constant} : (pool constant).Along P place ↔ True := Iff.rfl

@[simp] theorem along_single {line : UInt32} {height : Nat} {instruction : Instruction} :
    (single line height instruction).Along P place ↔ P place ⟨line, height, instruction⟩ :=
  Iff.of_eq (and_true _)

theorem Along.mono (h : f.Along P place) (himp : ∀ place item, P place item → Q place item) :
    f.Along Q place := by
  obtain ⟨items, constants⟩ := f
  unfold Along at h ⊢
  induction items generalizing place with
  | nil => trivial
  | cons item items ih => exact ⟨himp _ _ h.1, ih h.2⟩

theorem Along.and (h : f.Along P place) (h' : f.Along Q place) :
    f.Along (fun o item => P o item ∧ Q o item) place := by
  obtain ⟨items, constants⟩ := f
  unfold Along at h h' ⊢
  induction items generalizing place with
  | nil => trivial
  | cons item items ih => exact ⟨⟨h.1, h'.1⟩, ih h.2 h'.2⟩

end Fragment

/-! ### Heights -/

/-- The height of the instruction at a place, counted from the first instruction. -/
def Item.heightAt : List Item → Nat → Option Nat
  | [], _ => none
  | item :: items, place =>
    if place = 0 then some item.height else if place < item.size then
      none else heightAt items (place - item.size)

namespace Item

theorem size_pos (item : Item) : 0 < item.size := by
  unfold size Instruction.size
  omega

theorem heightAt_add (item : Item) (items : List Item) (place : Nat) :
    heightAt (item :: items) (item.size + place) = heightAt items place := by
  have hpos := item.size_pos
  rw [heightAt, if_neg (by omega), if_neg (by omega), Nat.add_sub_cancel_left]

/-- The height at a place of the code is the one of an instruction that stands there. -/
theorem Along.exists_of_heightAt {P : Nat → Item → Prop} {items : List Item} {start place height : Nat}
    (h : Along P start items) (hheight : heightAt items place = some height) :
    ∃ item, item.height = height ∧ P (start + place) item := by
  induction items generalizing start place with
  | nil => cases hheight
  | cons item items ih =>
    rw [heightAt] at hheight
    split at hheight <;> rename_i hplace
    · cases hheight
      subst hplace
      exact ⟨item, rfl, h.1⟩
    · split at hheight <;> rename_i hsize
      · cases hheight
      · obtain ⟨found, hfound, hP⟩ := ih h.2 hheight
        refine ⟨found, hfound, ?_⟩
        rwa [Nat.add_assoc, Nat.add_sub_cancel' (Nat.le_of_not_lt hsize)] at hP

theorem along_heightAt (items : List Item) :
    Along (fun place item => heightAt items place = some item.height) 0 items := by
  have hshift : ∀ (before : Nat) (rest : List Item),
      (∀ place, heightAt items (before + place) = heightAt rest place) →
      Along (fun place item => heightAt items place = some item.height) before rest := by
    intro before rest
    induction rest generalizing before with
    | nil => exact fun _ => trivial
    | cons item rest ih =>
      intro heq
      refine ⟨?_, ih _ fun place => ?_⟩
      · have hhere := heq 0
        rw [Nat.add_zero, heightAt, if_pos rfl] at hhere
        exact hhere
      · rw [Nat.add_assoc, heq, heightAt_add]
  exact hshift 0 items fun place => by rw [Nat.zero_add]

/-- The reader finds every instruction where it stands. -/
theorem along_read (items : List Item) :
    Along (fun place item => Instruction.read (items.flatMap (·.instruction.bytes)).toArray place =
      .instruction item.instruction) 0 items := by
  have hshift : ∀ (before : List UInt8) (rest : List Item),
      items.flatMap (·.instruction.bytes) = before ++ rest.flatMap (·.instruction.bytes) →
      Along (fun place item => Instruction.read (items.flatMap (·.instruction.bytes)).toArray place =
        .instruction item.instruction) before.length rest := by
    intro before rest
    induction rest generalizing before with
    | nil => exact fun _ => trivial
    | cons item rest ih =>
      intro heq
      rw [List.flatMap_cons] at heq
      refine ⟨?_, ?_⟩
      · rw [heq, ← List.append_assoc]
        exact Instruction.read_append before item.instruction _
      · have hrest := ih (before ++ item.instruction.bytes) (by rw [heq, List.append_assoc])
        rwa [List.length_append, Instruction.length_bytes] at hrest
  exact hshift [] items rfl

end Item

/-! ### Constants -/

/-- Some constants stand in a pool, from an index on. -/
def Constant.Pooled (pool : List Constant) : Nat → List Constant → Prop
  | _, [] => True
  | index, constant :: constants => pool[index]? = some constant ∧ Pooled pool (index + 1) constants

namespace Constant

variable {pool xs ys : List Constant} {index : Nat}

theorem pooled_append : Pooled pool index (xs ++ ys) ↔ Pooled pool index xs ∧
    Pooled pool (index + xs.length) ys := by
  induction xs generalizing index with
  | nil => simp [Pooled]
  | cons x xs ih =>
    rw [List.cons_append, Pooled, Pooled, ih, and_assoc, List.length_cons, Nat.add_assoc, Nat.add_comm 1]

@[simp] theorem pooled_nil : Pooled pool index [] ↔ True := Iff.rfl

@[simp] theorem pooled_singleton {constant : Constant} : Pooled pool index [constant] ↔
    pool[index]? = some constant :=
  Iff.of_eq (and_true _)

theorem pooled_self (pool : List Constant) : Pooled pool 0 pool := by
  have hshift : ∀ before rest : List Constant, pool = before ++ rest → Pooled pool before.length rest := by
    intro before rest
    induction rest generalizing before with
    | nil => exact fun _ => trivial
    | cons constant rest ih =>
      intro heq
      refine ⟨?_, ?_⟩
      · rw [heq, List.getElem?_append_right (Nat.le_refl _), Nat.sub_self]
        rfl
      · have hrest := ih (before ++ [constant]) (by rw [heq, List.append_assoc]; rfl)
        rwa [List.length_append] at hrest
  exact hshift [] pool rfl

end Constant

theorem Chunk.constant?_operandByte {chunk : Chunk} {index : Nat} {constant : Constant}
    (hroom : chunk.constants.length ≤ Chunk.maxConstants) (h : chunk.constants[index]? = some constant) :
    chunk.constant? (operandByte index) = some constant := by
  obtain ⟨hlt, -⟩ := List.getElem?_eq_some_iff.mp h
  have hsmall : index < 256 := Nat.lt_of_lt_of_le hlt hroom
  rw [Chunk.constant?, toNat_operandByte hsmall]
  exact h

end Lox
