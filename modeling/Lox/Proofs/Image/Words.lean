import Lox.Proofs.Image

/-! # The words of an image

After its header an image is a row of words, each of which spells one piece of the script: bytes as they are,
or a number in groups of seven bits. The script determines the pieces. A number can be spelled in several
ways, since its highest groups may be zero; the shortest spelling is the one that is written. -/

namespace Lox

namespace Image

/-! ### Spellings -/

/-- Some bytes spell a number: groups of seven bits, the lowest first, of which all but the last have
    the high bit set. -/
inductive Spells : List UInt8 → Nat → Prop
  | last {b : UInt8} (hlow : b.toNat < 128) : Spells [b] b.toNat
  | more {b : UInt8} {bytes : List UInt8} {n : Nat} (hhigh : 128 ≤ b.toNat) (hrest : Spells bytes n) :
    Spells (b :: bytes) (b.toNat - 128 + 128 * n)

/-- No shorter bytes spell the same number. -/
def Shortest (bytes : List UInt8) : Prop := ∀ n other, Spells bytes n → Spells other n →
    bytes.length ≤ other.length

theorem spells_varint (n : Nat) : Spells (varint n) n := by
  induction n using Nat.strongRecOn with
  | ind n ih =>
    rcases Nat.lt_or_ge n 128 with h | h
    · have hlast := Spells.last (b := UInt8.ofNat n) (by rwa [toNat_small h])
      rwa [toNat_small h, ← varint_small h] at hlast
    · have hmore := Spells.more (b := UInt8.ofNat (n % 128 + 128)) (by rw [toNat_large]; omega)
        (ih (n / 128) (by omega))
      rw [toNat_large, ← varint_large h] at hmore
      have hvalue : n % 128 + 128 - 128 + 128 * (n / 128) = n := by omega
      rwa [hvalue] at hmore

namespace Spells

variable {bytes other : List UInt8} {m n : Nat}

theorem length_pos (h : Spells bytes n) : 0 < bytes.length := by
  cases h <;> exact Nat.succ_pos _

/-- No spelling is shorter than the one that is written. -/
theorem length_varint_le (h : Spells bytes n) : (varint n).length ≤ bytes.length := by
  induction h with
  | last hlow =>
    rw [varint_small hlow]
    exact Nat.le_refl 1
  | @more b bytes n hhigh hrest ih =>
    have hlt := b.toNat_lt
    rcases Nat.lt_or_ge (b.toNat - 128 + 128 * n) 128 with h | h
    · rw [varint_small h]
      exact Nat.succ_le_succ (Nat.zero_le _)
    · have hnext : (b.toNat - 128 + 128 * n) / 128 = n := by omega
      rw [varint_large h, hnext]
      exact Nat.succ_le_succ ih

/-- Two spellings of one number that are equally long are the same. -/
theorem eq_of_length (h : Spells bytes n) (hother : Spells other n) (hlength : bytes.length = other.length) :
    bytes = other := by
  induction h generalizing other with
  | @last b hlow =>
    generalize hn : b.toNat = n at hother
    cases hother with
    | last _ => rw [UInt8.toNat_inj.mp hn]
    | more _ hrest =>
      have hpos := hrest.length_pos
      simp only [List.length_cons, List.length_nil] at hlength
      omega
  | @more b bytes n hhigh hrest ih =>
    generalize hvalue : b.toNat - 128 + 128 * n = value at hother
    cases hother with
    | last _ =>
      have hpos := hrest.length_pos
      rw [List.length_cons, List.length_singleton] at hlength
      omega
    | @more c others m hhigh' hrest' =>
      have hb := b.toNat_lt
      have hc := c.toNat_lt
      obtain ⟨hbyte, rfl⟩ : b.toNat = c.toNat ∧ n = m := by omega
      rw [UInt8.toNat_inj.mp hbyte, ih hrest' (Nat.succ.inj hlength)]

theorem unique (h : Spells bytes m) (hother : Spells bytes n) : m = n := by
  induction h generalizing n with
  | last hlow =>
    cases hother with
    | last _ => rfl
    | more _ hrest => cases hrest
  | @more b bytes m hhigh hrest ih =>
    cases hother with
    | last hlow => cases hrest
    | more _ hrest' => rw [ih hrest']

/-- The shortest spelling is the one that is written. -/
theorem shortest_iff (h : Spells bytes n) : Shortest bytes ↔ bytes = varint n := by
  constructor
  · intro hshortest
    exact h.eq_of_length (spells_varint n)
      (Nat.le_antisymm (hshortest n _ h (spells_varint n)) h.length_varint_le)
  · rintro rfl m other hm hother
    obtain rfl := h.unique hm
    exact hother.length_varint_le

/-- A spelling is no proper beginning of another. -/
theorem append_inj {rest rest' : List UInt8} (h : Spells bytes m) (hother : Spells other n)
    (heq : bytes ++ rest = other ++ rest') : bytes = other ∧ rest = rest' := by
  induction h generalizing other n with
  | @last b hlow =>
    cases hother with
    | last _ =>
      cases heq
      exact ⟨rfl, rfl⟩
    | more hhigh _ =>
      cases heq
      omega
  | @more b bytes m hhigh hrest ih =>
    cases hother with
    | last hlow =>
      cases heq
      omega
    | more _ hrest' =>
      obtain ⟨rfl, htail⟩ := List.cons.inj heq
      obtain ⟨rfl, rfl⟩ := ih hrest' htail
      exact ⟨rfl, rfl⟩

end Spells

/-! ### Pieces and words -/

/-- A piece of a script: bytes as they are, or a number of at most so many bits. -/
inductive Piece where
  | raw (bytes : List UInt8)
  | number (bits n : Nat)

/-- Some bytes spell a piece. A number has at most as many groups as its bits can take. -/
inductive Piece.SpeltBy : Piece → List UInt8 → Prop
  | raw (bytes : List UInt8) : SpeltBy (.raw bytes) bytes
  | number {bits n : Nat} {bytes : List UInt8} (spells : Spells bytes n) (fits : n < 2 ^ bits)
    (length_le : bytes.length ≤ (bits + 6) / 7) : SpeltBy (.number bits n) bytes

/-- The bytes that are written for a piece. -/
def Piece.written : Piece → List UInt8
  | raw bytes => bytes
  | number _ n => varint n

/-- A word of an image, with the piece that it spells. -/
structure Word where
  piece : Piece
  bytes : List UInt8
  spelt : piece.SpeltBy bytes

/-- The word spells a number. -/
def Word.IsNumber (word : Word) : Prop := ∃ bits n, word.piece = .number bits n

namespace Word

variable {word other : Word} {words others : List Word}

/-- A word is at least as long as what is written for its piece. -/
theorem length_written_le (word : Word) : word.piece.written.length ≤ word.bytes.length := by
  obtain ⟨piece, bytes, hspelt⟩ := word
  cases hspelt with
  | raw => exact Nat.le_refl _
  | number hspells _ _ => exact hspells.length_varint_le

/-- A word that is not what is written for its piece spells a number, and in a longer way than needed. -/
theorem eq_written_iff (word : Word) : word.bytes = word.piece.written ↔
    (word.IsNumber → Shortest word.bytes) := by
  obtain ⟨piece, bytes, hspelt⟩ := word
  cases hspelt with
  | raw =>
    refine iff_of_true rfl ?_
    rintro ⟨bits, n, heq⟩
    cases heq
  | @number bits n bytes hspells _ _ =>
    rw [Piece.written, ← hspells.shortest_iff]
    exact ⟨fun h _ => h, fun h => h ⟨bits, n, rfl⟩⟩

/-- There is a word as it is written, if any word spells the piece. -/
theorem exists_written (word : Word) : ∃ other : Word, other.piece = word.piece ∧
    other.bytes = word.piece.written := by
  obtain ⟨piece, bytes, hspelt⟩ := word
  cases hspelt with
  | raw => exact ⟨⟨.raw bytes, bytes, .raw bytes⟩, rfl, rfl⟩
  | @number bits n bytes hspells hfits hlength =>
    exact ⟨⟨_, _, .number (spells_varint n) hfits (hspells.length_varint_le.trans hlength)⟩, rfl, rfl⟩

/-- Words that spell the same piece at the beginning of the same bytes are the same. -/
theorem append_inj {rest rest' : List UInt8} (hpiece : word.piece = other.piece)
    (heq : word.bytes ++ rest = other.bytes ++ rest') : word = other ∧ rest = rest' := by
  obtain ⟨piece, bytes, hspelt⟩ := word
  obtain ⟨piece', bytes', hspelt'⟩ := other
  cases hpiece
  cases hspelt with
  | raw =>
    cases hspelt'
    exact ⟨rfl, List.append_cancel_left heq⟩
  | number hspells _ _ =>
    cases hspelt' with
    | number hspells' _ _ =>
      obtain ⟨rfl, rfl⟩ := hspells.append_inj hspells' heq
      exact ⟨rfl, rfl⟩

end Word

/-! ### Rows of words -/

/-- The bytes of some words, one after the other. -/
def bytesOf (words : List Word) : List UInt8 := words.flatMap Word.bytes

/-- The pieces that some words spell. -/
def piecesOf (words : List Word) : List Piece := words.map Word.piece

/-- The bytes that are written for some pieces. -/
def written (pieces : List Piece) : List UInt8 := pieces.flatMap Piece.written

/-- Every number among some words is spelled in the shortest way. -/
def InShortest (words : List Word) : Prop := ∀ word ∈ words, word.IsNumber → Shortest word.bytes

section

variable {words others : List Word} {xs ys : List Piece}

@[simp] theorem bytesOf_append : bytesOf (words ++ others) = bytesOf words ++ bytesOf others :=
  List.flatMap_append

@[simp] theorem bytesOf_cons {word : Word} : bytesOf (word :: words) = word.bytes ++ bytesOf words :=
  List.flatMap_cons

@[simp] theorem piecesOf_cons {word : Word} : piecesOf (word :: words) = word.piece :: piecesOf words :=
  List.map_cons

@[simp] theorem written_cons {x : Piece} : written (x :: xs) = x.written ++ written xs := List.flatMap_cons

@[simp] theorem written_append : written (xs ++ ys) = written xs ++ written ys := List.flatMap_append

@[simp] theorem piecesOf_append : piecesOf (words ++ others) = piecesOf words ++ piecesOf others :=
  List.map_append

/-- Words that spell two rows of pieces are those that spell the first and those that spell the second. -/
theorem exists_of_piecesOf_eq_append (h : piecesOf words = xs ++ ys) :
    ∃ us vs, words = us ++ vs ∧ piecesOf us = xs ∧ piecesOf vs = ys := List.map_eq_append_iff.mp h

/-- Words that spell one piece are one word. -/
theorem spelt_of_piecesOf_eq {x : Piece} (h : piecesOf words = [x]) : x.SpeltBy (bytesOf words) := by
  obtain ⟨word, rest, rfl, rfl, hrest⟩ := List.map_eq_cons_iff.mp h
  obtain rfl := List.map_eq_nil_iff.mp hrest
  rw [bytesOf, List.flatMap_singleton]
  exact word.spelt

theorem bytesOf_inj (hpieces : piecesOf words = piecesOf others) (hbytes : bytesOf words = bytesOf others) :
    words = others := by
  induction words generalizing others with
  | nil => exact (List.map_eq_nil_iff.mp hpieces.symm).symm
  | cons word words ih =>
    obtain ⟨other, others, rfl, hpiece, hrest⟩ := List.map_eq_cons_iff.mp hpieces.symm
    rw [bytesOf_cons, bytesOf_cons] at hbytes
    obtain ⟨rfl, htail⟩ := Word.append_inj hpiece.symm hbytes
    rw [ih hrest.symm htail]

/-- What is written for the pieces of some words is no longer than they are. -/
theorem length_written_le (words : List Word) : (written (piecesOf words)).length ≤ (bytesOf words).length := by
  induction words with
  | nil => exact Nat.le_refl _
  | cons word words ih =>
    rw [piecesOf_cons, bytesOf_cons, written_cons, List.length_append, List.length_append]
    exact Nat.add_le_add word.length_written_le ih

/-- Some words are what is written for their pieces exactly if every number among them is spelled in
    the shortest way. -/
theorem eq_written_iff (words : List Word) : written (piecesOf words) = bytesOf words ↔ InShortest words := by
  induction words with
  | nil => exact iff_of_true rfl fun _ h => absurd h List.not_mem_nil
  | cons word words ih =>
    rw [piecesOf_cons, bytesOf_cons, written_cons, InShortest, List.forall_mem_cons, ← InShortest, ← ih,
      ← word.eq_written_iff]
    constructor
    · intro h
      have hlength := congrArg List.length h
      have hword := word.length_written_le
      have hwords := length_written_le words
      rw [List.length_append, List.length_append] at hlength
      obtain ⟨hfirst, hrest⟩ := List.append_inj h (by omega)
      exact ⟨hfirst.symm, hrest⟩
    · rintro ⟨hfirst, hrest⟩
      rw [← hfirst, hrest]

/-- The pieces of some words are also spelled by what is written for them. -/
theorem exists_written (words : List Word) : ∃ others, piecesOf others = piecesOf words ∧
    bytesOf others = written (piecesOf words) := by
  induction words with
  | nil => exact ⟨[], rfl, rfl⟩
  | cons word words ih =>
    obtain ⟨other, hpiece, hbytes⟩ := word.exists_written
    obtain ⟨others, hpieces, hwritten⟩ := ih
    refine ⟨other :: others, ?_, ?_⟩
    · rw [piecesOf_cons, piecesOf_cons, hpiece, hpieces]
    · rw [bytesOf_cons, piecesOf_cons, written_cons, hbytes, hwritten]

end

/-! ### The pieces of a script -/

/-- The pieces of a text: the number of its bytes, and the bytes. -/
def textPieces (text : String) : List Piece :=
  let bytes := text.toUTF8.toList
  [.number 64 bytes.length, .raw bytes]

/-- The pieces of an optional name. -/
def namePieces : Option String → List Piece
  | none => [.raw [0]]
  | some name => .raw [1] :: textPieces name

end Image

open Image

mutual

/-- The pieces of a function; `none` if a routine of the host is among its constants. -/
def Function.pieces? : Function → Option (List Piece)
  | ⟨arity, chunk, name⟩ => do
    let body ← chunk.pieces?
    some (.raw [arity] :: (body ++ namePieces name))

/-- The pieces of a chunk: each sequence after its length. -/
def Chunk.pieces? : Chunk → Option (List Piece)
  | ⟨code, lines, constants⟩ => do
    let pool ← Constant.allPieces? constants
    some ([.number 64 code.size, .raw code.toList] ++
      (.number 64 lines.size :: lines.toList.map fun line => .number 32 line.toNat) ++
      (.number 64 constants.length :: pool))

/-- The pieces of the constants of a pool. -/
def Constant.allPieces? : List Constant → Option (List Piece)
  | [] => some []
  | constant :: constants => do
    let first ← constant.pieces?
    let rest ← Constant.allPieces? constants
    some (first ++ rest)

/-- The pieces of a constant: a tag and what the tag announces. -/
def Constant.pieces? : Constant → Option (List Piece)
  | .nil => some [.number 32 0]
  | .bool b => some [.number 32 1, .raw [if b then 1 else 0]]
  | .number bits => some [.number 32 2, .raw (numberBytes bits)]
  | .string s => some (.number 32 3 :: .number 32 0 :: textPieces s)
  | .function f => do
    let body ← f.pieces?
    some (.number 32 3 :: .number 32 1 :: body)
  | .native _ => none

end

/-! ### What is written -/

namespace Image

theorem written_textPieces (text : String) : written (textPieces text) = textBytes text := by
  simp [textPieces, textBytes, written, Piece.written]

theorem written_namePieces (name : Option String) : written (namePieces name) = nameBytes name := by
  cases name with
  | none => rfl
  | some name => rw [namePieces, written_cons, written_textPieces, nameBytes, Piece.written,
      List.singleton_append]

end Image

mutual

/-- The bytes of a function are what is written for its pieces. -/
theorem Function.encode?_eq : ∀ f : Function, f.encode? = f.pieces?.map written
  | ⟨arity, ⟨code, lines, constants⟩, name⟩ => by
    rw [Function.encode?, Function.pieces?, Chunk.encode?, Chunk.pieces?, Constant.encodeAll?_eq constants]
    cases Constant.allPieces? constants with
    | none => rfl
    | some pool =>
      have hlines : written (lines.toList.map fun line => Piece.number 32 line.toNat) =
          lines.toList.flatMap fun line => varint line.toNat := by
        rw [written, List.flatMap_map]
        rfl
      rw [Option.map_some, Option.bind_eq_bind, Option.bind_some]
      simp [hlines, written_namePieces, Piece.written]

theorem Constant.encodeAll?_eq : ∀ constants : List Constant,
    Constant.encodeAll? constants = (Constant.allPieces? constants).map written
  | [] => rfl
  | constant :: constants => by
    rw [Constant.encodeAll?, Constant.allPieces?, constant.encode?_eq, Constant.encodeAll?_eq constants]
    cases constant.pieces? with
    | none => rfl
    | some first =>
      cases Constant.allPieces? constants with
      | none => rfl
      | some rest => exact congrArg some written_append.symm

theorem Constant.encode?_eq : ∀ constant : Constant, constant.encode? = constant.pieces?.map written
  | .nil | .bool _ | .native _ => rfl
  | .number bits => by
    rw [Constant.encode?, Constant.pieces?, Option.map_some, written_cons, written_cons]
    simp [Piece.written, written]
    rfl
  | .string text => by
    rw [Constant.encode?, Constant.pieces?, Option.map_some, written_cons, written_cons, written_textPieces]
    rfl
  | .function f => by
    rw [Constant.encode?, Constant.pieces?, f.encode?_eq]
    cases f.pieces? <;> rfl

end

end Lox
