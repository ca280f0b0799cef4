import Lox.Image
import Mathlib.Algebra.GroupWithZero.Nat
import Mathlib.Data.Nat.Log

/-! # Images give back what was written

The reader of each part of an image gives back what the writer put there and leaves the bytes that follow. It
fails only if a length does not fit in 64 bits, and then as for any number that is too long. -/

namespace Lox

namespace Image

/-- A reader gives `a` back from the bytes that were written for it; it finds a number too
    long unless they fit. -/
def Restores {α : Type} (read : Reader α) (bytes : List UInt8) (a : α) (fits : Prop) : Prop :=
  ∀ rest, fits ∧ read (bytes ++ rest) = .ok (a, rest) ∨ ¬fits ∧ read (bytes ++ rest) = .error .badVarint

namespace Restores

variable {α β : Type} {bytes bytes' : List UInt8} {a : α} {b : β} {p q : Prop}

theorem congr {read : Reader α} (h : Restores read bytes a p) (hiff : p ↔ q) : Restores read bytes a q := by
  intro rest
  rw [← hiff]
  exact h rest

/-- One reader after another, as the parts that they read. -/
theorem bind {read : Reader α} {next : α × List UInt8 → Except Problem (β × List UInt8)}
    (h : Restores read bytes a p) (hnext : Restores (fun input => next (a, input)) bytes' b q) :
    Restores (fun input => read input >>= next) (bytes ++ bytes') b (p ∧ q) := by
  intro rest
  rw [List.append_assoc]
  rcases h (bytes' ++ rest) with ⟨hp, hread⟩ | ⟨hp, hread⟩
  · have hrest : (read (bytes ++ (bytes' ++ rest)) >>= next) = next (a, bytes' ++ rest) := by
      rw [hread]
      rfl
    rcases hnext rest with ⟨hq, hread'⟩ | ⟨hq, hread'⟩
    · exact Or.inl ⟨⟨hp, hq⟩, hrest.trans hread'⟩
    · exact Or.inr ⟨fun hboth => hq hboth.2, hrest.trans hread'⟩
  · refine Or.inr ⟨fun hboth => hp hboth.1, ?_⟩
    dsimp only
    rw [hread]
    rfl

/-- The last reader of a part. -/
theorem last {read : Reader α} {next : α × List UInt8 → Except Problem (β × List UInt8)}
    (h : Restores read bytes a p) (hnext : ∀ input, next (a, input) = .ok (b, input)) :
    Restores (fun input => read input >>= next) bytes b p := by
  have hpure : Restores (fun input => next (a, input)) [] b True := fun rest => Or.inl ⟨trivial, hnext rest⟩
  have hbind := h.bind hpure
  rw [List.append_nil] at hbind
  exact hbind.congr (and_iff_left trivial)

end Restores

/-! ### Numbers -/

theorem log2_div_small {n : Nat} (h : n < 128) : n.log2 / 7 = 0 := by
  by_cases hzero : n = 0
  · rw [hzero]
    rfl
  · have hlog : n.log2 < 7 := (Nat.log2_lt hzero).mpr h
    omega

theorem log2_div_large {n : Nat} (h : 128 ≤ n) : n.log2 / 7 = (n / 128).log2 / 7 + 1 := by
  have hlog : (n / 128).log2 + 7 = n.log2 := by
    have hdiv : n / 128 ≠ 0 := by omega
    have hlow : 2 ^ (n / 128).log2 ≤ n / 128 := Nat.log2_self_le hdiv
    have hhigh : n / 128 < 2 ^ ((n / 128).log2 + 1) := Nat.lt_log2_self
    symm
    refine Nat.le_antisymm (Nat.le_of_lt_succ ((Nat.log2_lt (by omega)).mpr ?_))
      ((Nat.le_log2 (by omega)).mpr ?_)
    · rw [Nat.succ_eq_add_one, show (n / 128).log2 + 7 + 1 = (n / 128).log2 + 1 + 7 by omega, Nat.pow_add]
      omega
    · rw [Nat.pow_add]
      omega
  omega

theorem varint_small {n : Nat} (h : n < 128) : varint n = [UInt8.ofNat n] := by
  rw [varint, log2_div_small h, groups]

theorem varint_large {n : Nat} (h : 128 ≤ n) : varint n = UInt8.ofNat (n % 128 + 128) :: varint (n / 128) := by
  rw [varint, log2_div_large h, groups, varint]

theorem toNat_small {n : Nat} (h : n < 128) : (UInt8.ofNat n).toNat = n := by
  rw [UInt8.toNat_ofNat']
  omega

theorem toNat_large (n : Nat) : (UInt8.ofNat (n % 128 + 128)).toNat = n % 128 + 128 := by
  rw [UInt8.toNat_ofNat']
  omega

theorem restores_groups (limit : UInt8) (hlimit : limit.toNat < 128) (more n : Nat) :
    Restores (Reader.groups limit more) (varint n) n (n < 128 ^ more * (limit.toNat + 1)) := by
  induction more generalizing n with
  | zero =>
    intro rest
    rw [Nat.pow_zero, Nat.one_mul, Nat.lt_succ_iff]
    rcases Nat.lt_or_ge n 128 with h | h
    · simp only [varint_small h, List.singleton_append, Reader.groups, UInt8.le_iff_toNat_le, toNat_small h]
      by_cases hle : n ≤ limit.toNat
      · exact Or.inl ⟨hle, if_pos hle⟩
      · exact Or.inr ⟨hle, if_neg hle⟩
    · simp only [varint_large h, List.cons_append, Reader.groups, UInt8.le_iff_toNat_le, toNat_large]
      exact Or.inr ⟨by omega, if_neg (by omega)⟩
  | succ more ih =>
    intro rest
    have hscale : 128 ^ (more + 1) * (limit.toNat + 1) = 128 * (128 ^ more * (limit.toNat + 1)) := by
      rw [Nat.pow_succ, Nat.mul_comm (128 ^ more), Nat.mul_assoc]
    rw [hscale]
    rcases Nat.lt_or_ge n 128 with h | h
    · have hpos : 0 < 128 ^ more * (limit.toNat + 1) := Nat.mul_pos (Nat.pow_pos (by decide)) (Nat.succ_pos _)
      simp only [varint_small h, List.singleton_append, Reader.groups, UInt8.lt_iff_toNat_lt, toNat_small h]
      exact Or.inl ⟨by omega, if_pos h⟩
    · simp only [varint_large h, List.cons_append, Reader.groups, UInt8.lt_iff_toNat_lt, toNat_large]
      rw [if_neg (show ¬n % 128 + 128 < (128 : UInt8).toNat from Nat.not_lt.mpr (Nat.le_add_left 128 _))]
      rcases ih (n / 128) rest with ⟨hfits, hread⟩ | ⟨hfits, hread⟩ <;> rw [hread]
      · refine Or.inl ⟨by omega, ?_⟩
        have hvalue : n % 128 + 128 - 128 + 128 * (n / 128) = n := by omega
        dsimp only
        rw [hvalue]
      · exact Or.inr ⟨by omega, rfl⟩

theorem restores_varint64 (n : Nat) : Restores Reader.varint64 (varint n) n (n < 2 ^ 64) :=
  restores_groups 1 (by decide) 9 n

theorem restores_varint32 (n : Nat) : Restores Reader.varint32 (varint n) n (n < 2 ^ 32) :=
  restores_groups 15 (by decide) 4 n

theorem restores_tag (tag : UInt8) (h : tag.toNat < 128) : Restores Reader.varint32 [tag] tag.toNat True := by
  have hvarint := restores_varint32 tag.toNat
  rw [varint_small h, UInt8.ofNat_toNat] at hvarint
  exact hvarint.congr (iff_true_intro (by omega))

/-! ### Texts, names and numbers -/

theorem restores_byte (b : UInt8) : Restores Reader.byte [b] b True := fun _ => Or.inl ⟨trivial, rfl⟩

theorem restores_take (bytes : List UInt8) : Restores (Reader.take bytes.length) bytes bytes True := by
  intro rest
  refine Or.inl ⟨trivial, ?_⟩
  simp [Reader.take]

/-- The number of bytes of a text fits in 64 bits. -/
def TextSized (text : String) : Prop := text.toUTF8.size < 2 ^ 64

theorem toList_loop (bytes : ByteArray) (i : Nat) (found : List UInt8) :
    ByteArray.toList.loop bytes i found = found.reverse ++ bytes.data.toList.drop i := by
  fun_induction ByteArray.toList.loop bytes i found with
  | case1 i found h ih =>
    have hlength : i < bytes.data.toList.length := h
    have hget : bytes.get! i = bytes.data.toList[i] := by
      show bytes.data[i]! = _
      rw [getElem!_pos bytes.data i h]
      exact (Array.getElem_toList h).symm
    rw [ih, List.drop_eq_getElem_cons hlength, hget]
    simp
  | case2 i found h =>
    have hlength : bytes.data.toList.length ≤ i := Nat.not_lt.mp h
    rw [List.drop_eq_nil_of_le hlength]
    simp

theorem toList_eq (bytes : ByteArray) : bytes.toList = bytes.data.toList := by
  rw [ByteArray.toList, toList_loop]
  simp

theorem fromUTF8_toUTF8 (text : String) : String.fromUTF8? (ByteArray.mk text.toUTF8.toList.toArray) =
    some text := by
  have hbytes : ByteArray.mk text.toUTF8.toList.toArray = text.toUTF8 := by rw [toList_eq]
  have hvalid : text.toUTF8.IsValidUTF8 := text.isValidUTF8
  rw [hbytes, String.fromUTF8?, dif_pos hvalid]
  rfl

theorem restores_text (text : String) : Restores Reader.text (textBytes text) text (TextSized text) := by
  refine Restores.congr ((restores_varint64 _).bind ((restores_take text.toUTF8.toList).last fun input => ?_))
    ?_
  · dsimp only
    rw [fromUTF8_toUTF8]
  · rw [TextSized, toList_eq]
    exact and_iff_left trivial

theorem restores_name (name : Option String) :
    Restores Reader.name (nameBytes name) name (∀ text, name = some text → TextSized text) := by
  cases name with
  | none =>
    have h : Restores Reader.name [0] none True := (restores_byte 0).last fun input => rfl
    exact h.congr (by simp)
  | some text =>
    have htext : Restores (fun input => Reader.text input >>= fun x => .ok (some x.1, x.2)) (textBytes text)
        (some text)
      (TextSized text) := (restores_text text).last fun input => rfl
    have h : Restores Reader.name (1 :: textBytes text) (some text) (True ∧ TextSized text) :=
      (restores_byte 1).bind htext
    exact h.congr (by simp)

theorem bitsOf_numberBytes (bits : UInt64) : Reader.bitsOf (numberBytes bits) = bits := by
  apply UInt64.toNat_inj.mp
  have hlt := bits.toNat_lt
  simp [Reader.bitsOf, numberBytes, List.range, List.range.loop]
  omega

/-! ### Sequences -/

section

variable {α : Type} {item : Reader α}

theorem restores_none (found : List α) : Restores (Reader.many item 0 found) [] found.reverse True :=
  fun _ => Or.inl ⟨trivial, rfl⟩

theorem restores_more {bytes bytes' : List UInt8} {a : α} {found result : List α} {count : Nat} {p q : Prop}
    (hitem : Restores item bytes a p) (hmore : Restores (Reader.many item count (a :: found)) bytes' result q) :
    Restores (Reader.many item (count + 1) found) (bytes ++ bytes') result (p ∧ q) := by
  have hbind : Restores (fun input => item input >>= fun x => Reader.many item count (x.1 :: found) x.2)
      (bytes ++ bytes')
      result (p ∧ q) := hitem.bind hmore
  intro rest
  have heq : Reader.many item (count + 1) found (bytes ++ bytes' ++ rest) =
      (item (bytes ++ bytes' ++ rest) >>= fun x => Reader.many item count (x.1 :: found) x.2) := by
    rw [Reader.many]
    cases item (bytes ++ bytes' ++ rest) <;> rfl
  rw [heq]
  exact hbind rest

theorem restores_lines (lines : List UInt32) (found : List Nat) :
    Restores (Reader.many Reader.varint32 lines.length found) (lines.flatMap fun line => varint line.toNat)
      (found.reverse ++ lines.map UInt32.toNat) True := by
  induction lines generalizing found with
  | nil =>
    rw [List.map_nil, List.append_nil]
    exact restores_none found
  | cons line lines ih =>
    have hmore := restores_more (restores_varint32 line.toNat) (ih (line.toNat :: found))
    rw [List.reverse_cons, List.append_assoc] at hmore
    exact hmore.congr (iff_true_intro ⟨line.toNat_lt, trivial⟩)

end

end Image

/-! ### Functions -/

mutual

/-- The lengths of the parts of a function fit in 64 bits. -/
def Function.Sized : Function → Prop
  | ⟨_, chunk, name⟩ => chunk.Sized ∧ ∀ text, name = some text → Image.TextSized text

/-- The lengths of the parts of a chunk fit in 64 bits. -/
def Chunk.Sized : Chunk → Prop
  | ⟨code, lines, constants⟩ =>
    code.size < 2 ^ 64 ∧ lines.size < 2 ^ 64 ∧ constants.length < 2 ^ 64 ∧ Constant.AllSized constants

/-- The lengths of the parts of some constants fit in 64 bits. -/
def Constant.AllSized : List Constant → Prop
  | [] => True
  | constant :: constants => constant.Sized ∧ Constant.AllSized constants

/-- The lengths of the parts of a constant fit in 64 bits. -/
def Constant.Sized : Constant → Prop
  | .string text => Image.TextSized text
  | .function f => f.Sized
  | _ => True

end

mutual

def Function.decidableSized : (f : Function) → Decidable f.Sized
  | ⟨_, chunk, name⟩ =>
    have : Decidable chunk.Sized := chunk.decidableSized
    have : Decidable (∀ text, name = some text → Image.TextSized text) :=
      match name with
      | none => .isTrue fun _ h => by cases h
      | some text =>
        decidable_of_iff (text.toUTF8.size < 2 ^ 64) ⟨fun h _ heq => Option.some.inj heq ▸ h,
          fun h => h text rfl⟩
    inferInstanceAs (Decidable (_ ∧ _))

def Chunk.decidableSized : (chunk : Chunk) → Decidable chunk.Sized
  | ⟨code, lines, constants⟩ =>
    have : Decidable (Constant.AllSized constants) := Constant.decidableAllSized constants
    inferInstanceAs (Decidable (code.size < 2 ^ 64 ∧ lines.size < 2 ^ 64 ∧ constants.length < 2 ^ 64 ∧ _))

def Constant.decidableAllSized : (constants : List Constant) → Decidable (Constant.AllSized constants)
  | [] => .isTrue trivial
  | constant :: constants =>
    have : Decidable constant.Sized := constant.decidableSized
    have : Decidable (Constant.AllSized constants) := Constant.decidableAllSized constants
    inferInstanceAs (Decidable (_ ∧ _))

def Constant.decidableSized : (constant : Constant) → Decidable constant.Sized
  | .string text => inferInstanceAs (Decidable (text.toUTF8.size < 2 ^ 64))
  | .function f => f.decidableSized
  | .nil | .bool _ | .number _ | .native _ => .isTrue trivial

end

instance (f : Function) : Decidable f.Sized := f.decidableSized

open Image

mutual

theorem Function.restores : ∀ (f : Function) {bytes : List UInt8} {depth : Nat}, f.encode? = some bytes →
    bytes.length ≤ depth → Restores (Reader.function depth) bytes f f.Sized
  | ⟨arity, ⟨code, lines, constants⟩, name⟩, bytes, depth, hencode, hdepth => by
    obtain ⟨body, hbody, hencode⟩ := Option.bind_eq_some_iff.mp hencode
    obtain ⟨pool, hpool, hbody⟩ := Option.bind_eq_some_iff.mp hbody
    cases hbody
    cases hencode
    cases depth with
    | zero => exact absurd hdepth (by simp)
    | succ depth =>
      have hlength : pool.length ≤ depth := by
        simp only [List.length_cons, List.length_append] at hdepth
        omega
      have h : Restores (Reader.function (depth + 1)) ([arity] ++ (varint code.toList.length ++ (code.toList ++
          (varint lines.toList.length ++ ((lines.toList.flatMap fun line => varint line.toNat) ++
          (varint constants.length ++ (pool ++ nameBytes name)))))))
          ⟨arity, ⟨code, lines, constants⟩, name⟩ (True ∧ code.toList.length < 2 ^ 64 ∧ True ∧
            lines.toList.length < 2 ^ 64 ∧
          True ∧ constants.length < 2 ^ 64 ∧ Constant.AllSized constants ∧ ∀ text, name = some text →
          TextSized text) := by
        refine (restores_byte arity).bind ((restores_varint64 _).bind ((restores_take _).bind ?_))
        refine (restores_varint64 _).bind ((restores_lines _ []).bind ?_)
        refine (restores_varint64 _).bind ((Constant.restoresAll constants hpool hlength).bind ?_)
        refine (restores_name name).last fun input => ?_
        have hline : UInt32.ofNat ∘ UInt32.toNat = id := funext fun _ => UInt32.ofNat_toNat
        simp [hline]
      simp only [Array.length_toList] at h
      simpa [Function.Sized, Chunk.Sized, and_assoc] using h

theorem Constant.restoresAll :
    ∀ (constants : List Constant) {bytes : List UInt8} {depth : Nat} {found : List Constant},
    Constant.encodeAll? constants = some bytes → bytes.length ≤ depth →
    Restores (Reader.many (Reader.constant (Reader.function depth)) constants.length found) bytes
      (found.reverse ++ constants) (Constant.AllSized constants)
  | [], bytes, depth, found, hencode, _ => by
    cases hencode
    rw [List.append_nil]
    exact restores_none found
  | constant :: constants, bytes, depth, found, hencode, hdepth => by
    rw [Constant.encodeAll?] at hencode
    obtain ⟨first, hfirst, hencode⟩ := Option.bind_eq_some_iff.mp hencode
    obtain ⟨rest, hrest, hencode⟩ := Option.bind_eq_some_iff.mp hencode
    cases hencode
    rw [List.length_append] at hdepth
    have hitem := constant.restores hfirst (show first.length ≤ depth by omega)
    have hitems : Restores (Reader.many (Reader.constant (Reader.function depth)) constants.length
          (constant :: found)) rest
        ((constant :: found).reverse ++ constants) (Constant.AllSized constants) :=
      Constant.restoresAll constants hrest (by omega)
    have hmore := restores_more hitem hitems
    rw [List.reverse_cons, List.append_assoc] at hmore
    exact hmore

theorem Constant.restores : ∀ (constant : Constant) {bytes : List UInt8} {depth : Nat},
    constant.encode? = some bytes →
    bytes.length ≤ depth → Restores (Reader.constant (Reader.function depth)) bytes constant constant.Sized
  | .nil, bytes, depth, hencode, _ => by
    cases hencode
    have h : Restores (Reader.constant (Reader.function depth)) [0] .nil True :=
      (restores_tag 0 (by decide)).last fun input => rfl
    exact h.congr (by simp [Constant.Sized])
  | .bool b, bytes, depth, hencode, _ => by
    cases hencode
    have h : Restores (Reader.constant (Reader.function depth)) ([1] ++ [if b then 1 else 0]) (.bool b)
        (True ∧ True) := by
      refine (restores_tag 1 (by decide)).bind ((restores_byte _).last fun input => ?_)
      cases b <;> rfl
    exact h.congr (by simp [Constant.Sized])
  | .number bits, bytes, depth, hencode, _ => by
    cases hencode
    have h : Restores (Reader.constant (Reader.function depth)) ([2] ++ numberBytes bits) (.number bits)
        (True ∧ True) := by
      refine (restores_tag 2 (by decide)).bind ((restores_take (numberBytes bits)).last fun input => ?_)
      dsimp only
      rw [bitsOf_numberBytes]
    exact h.congr (by simp [Constant.Sized])
  | .string text, bytes, depth, hencode, _ => by
    cases hencode
    have h : Restores (Reader.constant (Reader.function depth)) ([3] ++ ([0] ++ textBytes text)) (.string text)
        (True ∧ True ∧ TextSized text) :=
      (restores_tag 3 (by decide)).bind
        ((restores_tag 0 (by decide)).bind ((restores_text text).last fun input => rfl))
    exact h.congr (by simp [Constant.Sized])
  | .function f, bytes, depth, hencode, hdepth => by
    obtain ⟨body, hbody, hencode⟩ := Option.bind_eq_some_iff.mp hencode
    cases hencode
    have hlength : body.length ≤ depth := by
      simp only [List.length_cons] at hdepth
      omega
    have h : Restores (Reader.constant (Reader.function depth)) ([3] ++ ([1] ++ body)) (.function f)
        (True ∧ True ∧ f.Sized) :=
      (restores_tag 3 (by decide)).bind
        ((restores_tag 1 (by decide)).bind ((f.restores hbody hlength).last fun input => rfl))
    exact h.congr (by simp [Constant.Sized])
  | .native _, bytes, depth, hencode, _ => by cases hencode

end

/-- What comes of loading an image that was written: the script if it verifies, and otherwise its defect. A
    length that does not fit in 64 bits is a number too long to be read. -/
theorem Image.decode_of_encode {f : Function} {image : List UInt8} (hencode : encode f = .ok image) :
    f.Sized ∧ decode image = (f.verify.mapError .verify).map (fun _ => f) ∨
      ¬f.Sized ∧ decode image = .error (.decode .badVarint) := by
  unfold encode at hencode
  split at hencode
  · rename_i body hbody
    cases hencode
    have hversion : wordOfBytes (highByte version) (lowByte version) = version :=
      wordOfBytes_highByte_lowByte version
    rw [decode, if_pos hversion]
    have hrestores := f.restores hbody (Nat.le_succ body.length) []
    rw [List.append_nil] at hrestores
    rcases hrestores with ⟨hsized, hread⟩ | ⟨hsized, hread⟩
    · refine Or.inl ⟨hsized, ?_⟩
      rw [hread]
      dsimp only
      cases f.verify <;> rfl
    · refine Or.inr ⟨hsized, ?_⟩
      rw [hread]
  · cases hencode

/-- A script that is written to an image and loaded again is the same script. -/
theorem Image.decode_encode {f g : Function} {image : List UInt8} (hencode : encode f = .ok image)
    (hdecode : decode image = .ok g) : g = f := by
  rcases decode_of_encode hencode with ⟨-, h⟩ | ⟨-, h⟩
  · rw [h] at hdecode
    cases hverify : f.verify <;> rw [hverify] at hdecode <;> cases hdecode
    rfl
  · rw [h] at hdecode
    cases hdecode

end Lox
