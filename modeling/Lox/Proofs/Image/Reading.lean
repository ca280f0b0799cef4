import Lox.Proofs.Image.Words

/-! # What the readers accept

Each reader is described by the pieces that its results are laid out in. It accepts exactly the inputs that
begin with words of these pieces, and it gives up on the words with the end of the buffer wherever they are
cut off. The descriptions are put together as the readers are. -/

namespace Lox

namespace Image

/-- A reader accepts exactly the words of the pieces in which its results are laid out, and needs all of them.
    The limit bounds the bytes for which that is known, since a function is read to a limited depth. -/
structure Reads {α : Type} (limit : Nat) (read : Reader α) (laid : α → List Piece → Prop) : Prop where
  sound : ∀ {input rest : List UInt8} {a : α}, read input = .ok (a, rest) →
    ∃ words, laid a (piecesOf words) ∧ input = bytesOf words ++ rest
  complete : ∀ {a : α} {words : List Word}, laid a (piecesOf words) → (bytesOf words).length ≤ limit →
    ∀ rest, read (bytesOf words ++ rest) = .ok (a, rest)
  cut : ∀ {a : α} {words : List Word} {input missing : List UInt8}, laid a (piecesOf words) →
    bytesOf words = input ++ missing → missing ≠ [] → input.length ≤ limit → read input = .error .endOfBuffer

namespace Reads

variable {α β : Type} {limit : Nat} {read : Reader α} {next : α × List UInt8 → Except Problem (β × List UInt8)}
  {laid laid' : α → List Piece → Prop} {laidNext : α → β → List Piece → Prop}

theorem congr (h : Reads limit read laid)
    (hiff : ∀ a words, laid a (piecesOf words) ↔ laid' a (piecesOf words)) :
    Reads limit read laid' where
  sound hread := by
    obtain ⟨words, hlaid, hinput⟩ := h.sound hread
    exact ⟨words, (hiff _ _).mp hlaid, hinput⟩
  complete hlaid := h.complete ((hiff _ _).mpr hlaid)
  cut hlaid := h.cut ((hiff _ _).mpr hlaid)

theorem mono {limit' : Nat} (h : Reads limit read laid) (hle : limit' ≤ limit) : Reads limit' read laid where
  sound := h.sound
  complete hlaid hlength := h.complete hlaid (hlength.trans hle)
  cut hlaid hcut hmissing hlength := h.cut hlaid hcut hmissing (hlength.trans hle)

/-- A result for which nothing is read. -/
theorem pure (a : α) : Reads limit (fun input => .ok (a, input)) fun b pieces => b = a ∧ pieces = [] where
  sound h := by
    cases h
    exact ⟨[], ⟨rfl, rfl⟩, rfl⟩
  complete := by
    rintro b words ⟨rfl, hwords⟩ - rest
    rw [List.map_eq_nil_iff.mp hwords]
    rfl
  cut := by
    rintro b words input missing ⟨-, hwords⟩ hcut hmissing -
    rw [List.map_eq_nil_iff.mp hwords] at hcut
    exact absurd (List.append_eq_nil_iff.mp hcut.symm).2 hmissing

/-- A problem ends the reading. -/
theorem fail (problem : Problem) : Reads (α := α) limit (fun _ => .error problem) fun _ _ => False where
  sound h := by cases h
  complete h := h.elim
  cut h := h.elim

/-- One reader after another: their words follow each other. -/
theorem bind (h : Reads limit read laid)
    (hnext : ∀ a, Reads limit (fun input => next (a, input)) (laidNext a)) :
    Reads limit (fun input => read input >>= next) fun b pieces =>
      ∃ a xs ys, laid a xs ∧ laidNext a b ys ∧ pieces = xs ++ ys where
  sound {input rest b} hread := by
    cases hfirst : read input with
    | error problem =>
      rw [hfirst] at hread
      cases hread
    | ok result =>
      obtain ⟨a, middle⟩ := result
      rw [hfirst] at hread
      obtain ⟨us, hlaid, rfl⟩ := h.sound hfirst
      obtain ⟨vs, hlaidNext, rfl⟩ := (hnext a).sound hread
      exact ⟨us ++ vs, ⟨a, _, _, hlaid, hlaidNext, piecesOf_append⟩, by rw [bytesOf_append, List.append_assoc]⟩
  complete {b words} hlaid hlength rest := by
    obtain ⟨a, xs, ys, hfirst, hsecond, hpieces⟩ := hlaid
    obtain ⟨us, vs, rfl, rfl, rfl⟩ := exists_of_piecesOf_eq_append hpieces
    rw [bytesOf_append, List.length_append] at hlength
    rw [bytesOf_append, List.append_assoc, h.complete hfirst (by omega)]
    exact (hnext a).complete hsecond (by omega) rest
  cut {b words input missing} hlaid hcut hmissing hlength := by
    obtain ⟨a, xs, ys, hfirst, hsecond, hpieces⟩ := hlaid
    obtain ⟨us, vs, rfl, rfl, rfl⟩ := exists_of_piecesOf_eq_append hpieces
    rw [bytesOf_append] at hcut
    -- The cut is in or after the words of the first reader; at their end, it is the second one that
    -- misses something.
    rcases List.append_eq_append_iff.mp hcut with ⟨behind, rfl, hbehind⟩ | ⟨before, hbefore, rfl⟩
    · rw [List.length_append] at hlength
      rw [h.complete hfirst (by omega)]
      exact (hnext a).cut hsecond hbehind hmissing (by omega)
    · rcases before with _ | ⟨b, before⟩
      · rw [List.append_nil] at hbefore
        have hread := h.complete hfirst (by rwa [hbefore]) []
        rw [List.append_nil, hbefore] at hread
        rw [hread]
        exact (hnext a).cut hsecond (List.nil_append _).symm hmissing (Nat.zero_le _)
      · rw [h.cut hfirst hbefore (List.cons_ne_nil _ _) hlength]
        rfl

/-- A byte, and a reader of the rest, which needs to know one byte less. -/
theorem byte_bind {next : UInt8 × List UInt8 → Except Problem (β × List UInt8)}
    {laidNext : UInt8 → β → List Piece → Prop}
    (hnext : ∀ b, Reads limit (fun input => next (b, input)) (laidNext b)) :
    Reads (limit + 1) (fun input => Reader.byte input >>= next) fun a pieces =>
      ∃ b rest, laidNext b a rest ∧ pieces = .raw [b] :: rest where
  sound {input rest a} hread := by
    cases input with
    | nil => cases hread
    | cons b input =>
      obtain ⟨words, hlaid, rfl⟩ := (hnext b).sound hread
      exact ⟨⟨.raw [b], [b], .raw [b]⟩ :: words, ⟨b, _, hlaid, rfl⟩, rfl⟩
  complete {a words} hlaid hlength rest := by
    obtain ⟨b, ys, hlaid, hpieces⟩ := hlaid
    obtain ⟨⟨_, _, hspelt⟩, words, rfl, rfl, rfl⟩ := List.map_eq_cons_iff.mp hpieces
    cases hspelt
    exact (hnext b).complete hlaid (Nat.le_of_succ_le_succ hlength) rest
  cut {a words input missing} hlaid hcut hmissing hlength := by
    obtain ⟨b, ys, hlaid, hpieces⟩ := hlaid
    obtain ⟨⟨_, _, hspelt⟩, words, rfl, rfl, rfl⟩ := List.map_eq_cons_iff.mp hpieces
    cases hspelt
    cases input with
    | nil => rfl
    | cons c input =>
      obtain ⟨rfl, hrest⟩ := List.cons.inj hcut
      exact (hnext b).cut hlaid hrest hmissing (Nat.le_of_succ_le_succ hlength)

/-- The last reader of a value. -/
theorem map (h : Reads limit read laid) (f : α → β) :
    Reads limit (fun input => read input >>= fun x => .ok (f x.1, x.2)) fun b pieces =>
      ∃ a, b = f a ∧ laid a pieces := by
  refine (h.bind fun a => Reads.pure (f a)).congr fun b words => ?_
  constructor
  · rintro ⟨a, xs, ys, hlaid, ⟨rfl, rfl⟩, hpieces⟩
    rw [hpieces, List.append_nil]
    exact ⟨a, rfl, hlaid⟩
  · rintro ⟨a, rfl, hlaid⟩
    exact ⟨a, _, [], hlaid, ⟨rfl, rfl⟩, (List.append_nil _).symm⟩

/-- A reader after one that decides how the result is laid out by a piece at its head. -/
theorem bind_head {piece : α → Piece} {whole : β → List Piece → Prop}
    (h : Reads limit read fun a pieces => pieces = [piece a])
    (hnext : ∀ a, Reads limit (fun input => next (a, input)) fun b rest => whole b (piece a :: rest))
    (hhead : ∀ b pieces, whole b pieces → ∃ a rest, pieces = piece a :: rest) :
    Reads limit (fun input => read input >>= next) whole := by
  refine (h.bind hnext).congr fun b words => ?_
  constructor
  · rintro ⟨a, xs, ys, rfl, hwhole, hpieces⟩
    rw [hpieces]
    exact hwhole
  · intro hwhole
    obtain ⟨a, rest, hpieces⟩ := hhead b _ hwhole
    rw [hpieces] at hwhole
    exact ⟨a, _, _, rfl, hwhole, hpieces⟩

theorem ite {p : Prop} [Decidable p] {other : Reader α} (hpos : p → Reads limit read laid)
    (hneg : ¬p → Reads limit other laid) :
    Reads limit (fun input => if p then read input else other input) laid := by
  by_cases h : p
  · simpa only [if_pos h] using hpos h
  · simpa only [if_neg h] using hneg h

end Reads

/-! ### Numbers -/

namespace Spells

variable {last : UInt8} {more n : Nat} {bytes rest : List UInt8}

/-- What is read as a number spells it. -/
theorem of_groups (hlast : last.toNat < 128) {input : List UInt8}
    (h : Reader.groups last more input = .ok (n, rest)) :
    ∃ bytes, Spells bytes n ∧ n < 128 ^ more * (last.toNat + 1) ∧ bytes.length ≤ more + 1 ∧
      input = bytes ++ rest := by
  induction more generalizing input n with
  | zero =>
    cases input with
    | nil => cases h
    | cons b input =>
      rw [Reader.groups] at h
      split at h
      · rename_i hle
        cases h
        have hle : b.toNat ≤ last.toNat := UInt8.le_iff_toNat_le.mp hle
        exact ⟨[b], .last (by omega), by omega, Nat.le_refl 1, rfl⟩
      · cases h
  | succ more ih =>
    cases input with
    | nil => cases h
    | cons b input =>
      have hb := b.toNat_lt
      have hscale : 128 ^ (more + 1) * (last.toNat + 1) = 128 * (128 ^ more * (last.toNat + 1)) := by
        rw [Nat.pow_succ', Nat.mul_assoc]
      have hpos : 0 < 128 ^ more * (last.toNat + 1) := Nat.mul_pos (Nat.pow_pos (by decide)) (Nat.succ_pos _)
      rw [Reader.groups] at h
      split at h
      · rename_i hlt
        cases h
        have hlt : b.toNat < 128 := UInt8.lt_iff_toNat_lt.mp hlt
        exact ⟨[b], .last hlt, by omega, Nat.succ_le_succ (Nat.zero_le _), rfl⟩
      · rename_i hhigh
        have hhigh : 128 ≤ b.toNat := Nat.not_lt.mp fun hlt => hhigh (UInt8.lt_iff_toNat_lt.mpr hlt)
        split at h
        · rename_i high rest hread
          cases h
          obtain ⟨bytes, hspells, hfits, hlength, rfl⟩ := ih hread
          exact ⟨b :: bytes, .more hhigh hspells, by omega, Nat.succ_le_succ hlength, rfl⟩
        · cases h

/-- Bytes that spell a number are read as the number, if it fits and they are not too many. -/
theorem groups_eq (h : Spells bytes n) (hfits : n < 128 ^ more * (last.toNat + 1))
    (hlength : bytes.length ≤ more + 1)
    (rest : List UInt8) : Reader.groups last more (bytes ++ rest) = .ok (n, rest) := by
  induction h generalizing more with
  | @last b hlow =>
    cases more with
    | zero =>
      have hle : b ≤ last := UInt8.le_iff_toNat_le.mpr (by omega)
      exact if_pos hle
    | succ more =>
      have hlt : b < 128 := UInt8.lt_iff_toNat_lt.mpr hlow
      exact if_pos hlt
  | @more b bytes n hhigh hrest ih =>
    cases more with
    | zero =>
      have hpos := hrest.length_pos
      rw [List.length_cons] at hlength
      omega
    | succ more =>
      have hscale : 128 ^ (more + 1) * (last.toNat + 1) = 128 * (128 ^ more * (last.toNat + 1)) := by
        rw [Nat.pow_succ', Nat.mul_assoc]
      have hge : ¬b < 128 := mt UInt8.lt_iff_toNat_lt.mp (Nat.not_lt.mpr hhigh)
      rw [List.cons_append, Reader.groups, if_neg hge, ih (by omega) (Nat.le_of_succ_le_succ hlength)]

/-- Bytes that spell a number cannot be read when some are missing at the end. -/
theorem groups_cut (h : Spells bytes n) (hlength : bytes.length ≤ more + 1) {input missing : List UInt8}
    (hcut : bytes = input ++ missing) (hmissing : missing ≠ []) :
    Reader.groups last more input = .error .endOfBuffer := by
  induction h generalizing more input with
  | last _ =>
    cases input with
    | nil => cases more <;> rfl
    | cons c input =>
      have hnil := (List.append_eq_nil_iff.mp (List.cons.inj hcut).2.symm).2
      exact absurd hnil hmissing
  | @more b bytes n hhigh hrest ih =>
    cases input with
    | nil => cases more <;> rfl
    | cons c input =>
      obtain ⟨rfl, hrestCut⟩ := List.cons.inj hcut
      cases more with
      | zero =>
        have hpos := hrest.length_pos
        rw [List.length_cons] at hlength
        omega
      | succ more =>
        have hge : ¬b < 128 := mt UInt8.lt_iff_toNat_lt.mp (Nat.not_lt.mpr hhigh)
        rw [Reader.groups, if_neg hge, ih (Nat.le_of_succ_le_succ hlength) hrestCut]

end Spells

section

variable {limit : Nat}

/-- The reader of the numbers of some bits allows for as many groups as these can take, and for as many
    bits in the last. -/
theorem reads_groups {last : UInt8} {more bits : Nat} (hlast : last.toNat < 128)
    (hrange : 128 ^ more * (last.toNat + 1) = 2 ^ bits) (hgroups : more + 1 = (bits + 6) / 7) :
    Reads limit (Reader.groups last more) fun n pieces => pieces = [.number bits n] where
  sound hread := by
    obtain ⟨bytes, hspells, hfits, hlength, rfl⟩ := Spells.of_groups hlast hread
    rw [hrange] at hfits
    rw [hgroups] at hlength
    exact ⟨[⟨_, bytes, .number hspells hfits hlength⟩], rfl, by simp [bytesOf]⟩
  complete hlaid _ rest := by
    cases spelt_of_piecesOf_eq hlaid with
    | number hspells hfits hlength => exact hspells.groups_eq (by rwa [hrange]) (by rwa [hgroups]) rest
  cut hlaid hcut hmissing _ := by
    cases spelt_of_piecesOf_eq hlaid with
    | number hspells _ hlength => exact hspells.groups_cut (by rwa [hgroups]) hcut hmissing

theorem reads_varint64 : Reads limit Reader.varint64 fun n pieces => pieces = [.number 64 n] :=
  reads_groups (by decide) (by decide) (by decide)

theorem reads_varint32 : Reads limit Reader.varint32 fun n pieces => pieces = [.number 32 n] :=
  reads_groups (by decide) (by decide) (by decide)

/-- As many items as a number before them says, and what follows them. -/
theorem reads_counted {α β : Type} {items : Nat → Reader (List α)} {laid : List α → List Piece → Prop}
    {next : List α × List UInt8 → Except Problem (β × List UInt8)} {laidNext : List α → β → List Piece → Prop}
    (hitems : ∀ count, Reads limit (items count) fun found pieces => found.length = count ∧ laid found pieces)
    (hnext : ∀ found, Reads limit (fun input => next (found, input)) (laidNext found)) :
    Reads limit (fun input => Reader.varint64 input >>= fun x => items x.1 x.2 >>= next) fun b pieces =>
      ∃ found xs ys, laid found xs ∧ laidNext found b ys ∧ pieces = .number 64 found.length :: (xs ++ ys) := by
  refine Reads.congr (reads_varint64.bind fun count => (hitems count).bind hnext) fun b words => ?_
  constructor
  · rintro ⟨_, _, _, rfl, ⟨found, xs, ys, ⟨rfl, hlaid⟩, hrest, rfl⟩, hpieces⟩
    exact ⟨found, xs, ys, hlaid, hrest, hpieces⟩
  · rintro ⟨found, xs, ys, hlaid, hrest, hpieces⟩
    exact ⟨_, _, _, rfl, ⟨found, xs, ys, ⟨rfl, hlaid⟩, hrest, rfl⟩, hpieces⟩

/-! ### Bytes, texts and names -/

theorem reads_take (count : Nat) :
    Reads limit (Reader.take count) fun bytes pieces => bytes.length = count ∧ pieces = [.raw bytes] where
  sound {input rest bytes} hread := by
    rw [Reader.take, List.splitAt_eq] at hread
    dsimp only at hread
    split at hread
    · rename_i hcount
      cases hread
      exact ⟨[⟨_, _, .raw _⟩], ⟨hcount, rfl⟩, by simp [bytesOf]⟩
    · cases hread
  complete {bytes words} hlaid _ rest := by
    obtain ⟨rfl, hpieces⟩ := hlaid
    have hspelt := spelt_of_piecesOf_eq hpieces
    generalize bytesOf words = input at hspelt
    cases hspelt
    simp [Reader.take]
  cut {bytes words input missing} hlaid hcut hmissing _ := by
    obtain ⟨rfl, hpieces⟩ := hlaid
    have hspelt := spelt_of_piecesOf_eq hpieces
    have hlength : bytes.length = input.length + missing.length := by
      rw [← List.length_append, ← hcut]
      cases hspelt
      rfl
    have hpos := List.length_pos_iff.mpr hmissing
    rw [Reader.take, List.splitAt_eq]
    exact if_neg (by rw [List.length_take]; omega)

theorem fromUTF8?_eq_some {bytes : List UInt8} {text : String} :
    String.fromUTF8? (ByteArray.mk bytes.toArray) = some text ↔ bytes = text.toUTF8.toList := by
  constructor
  · intro h
    rw [String.fromUTF8?] at h
    split at h
    · cases h
      rw [toList_eq]
      rfl
    · cases h
  · rintro rfl
    exact fromUTF8_toUTF8 text

theorem reads_text : Reads limit Reader.text fun text pieces => pieces = textPieces text := by
  refine Reads.congr (reads_counted reads_take fun bytes =>
    (?_ : Reads limit _ fun text pieces => bytes = text.toUTF8.toList ∧ pieces = [])) fun text words => ?_
  · dsimp only
    cases h : String.fromUTF8? (ByteArray.mk bytes.toArray) with
    | none =>
      refine (Reads.fail .badText).congr fun text _ => iff_of_false id ?_
      rintro ⟨hbytes, -⟩
      rw [fromUTF8?_eq_some.mpr hbytes] at h
      cases h
    | some found =>
      refine (Reads.pure found).congr fun text _ => and_congr_left' ?_
      rw [← fromUTF8?_eq_some, h, Option.some.injEq, eq_comm]
  · constructor
    · rintro ⟨bytes, xs, ys, rfl, ⟨rfl, rfl⟩, h⟩
      exact h
    · intro h
      exact ⟨_, _, _, rfl, ⟨rfl, rfl⟩, h⟩

theorem reads_byte : Reads limit Reader.byte fun b pieces => pieces = [.raw [b]] := by
  have hbyte : Reader.byte = fun input => Reader.byte input >>= fun x => .ok (x.1, x.2) := by
    funext input
    cases input <;> rfl
  rw [hbyte]
  refine ((Reads.byte_bind fun b => Reads.pure b).mono (Nat.le_succ limit)).congr fun b words => ?_
  constructor
  · rintro ⟨b, rest, ⟨rfl, rfl⟩, hpieces⟩
    exact hpieces
  · intro hpieces
    exact ⟨b, [], ⟨rfl, rfl⟩, hpieces⟩

theorem reads_name : Reads limit Reader.name fun name pieces => pieces = namePieces name := by
  refine reads_byte.bind_head (fun present => Reads.ite (fun h => ?_) fun hzero =>
      Reads.ite (fun h => ?_) fun hone => ?_) ?_
  · refine (Reads.pure none).congr fun name words => ?_
    cases name <;> simp [h, namePieces]
  · refine (reads_text.map some).congr fun name words => ?_
    cases name <;> simp [h, namePieces]
  · refine (Reads.fail .badOption).congr fun name words => ?_
    cases name <;> simp [hzero, hone, namePieces]
  · rintro name pieces rfl
    cases name <;> exact ⟨_, _, rfl⟩

end

/-! ### Sequences -/

/-- Some items are laid out one after the other. -/
inductive AllLaid {α : Type} (laid : α → List Piece → Prop) : List α → List Piece → Prop
  | nil : AllLaid laid [] []
  | cons {a : α} {items : List α} {xs ys : List Piece} (first : laid a xs) (rest : AllLaid laid items ys) :
    AllLaid laid (a :: items) (xs ++ ys)

theorem reads_many {α : Type} {limit : Nat} {item : Reader α} {laid : α → List Piece → Prop}
    (hitem : Reads limit item laid)
    (count : Nat) (found : List α) : Reads limit (Reader.many item count found) fun result pieces =>
      ∃ items, result = found.reverse ++ items ∧ items.length = count ∧ AllLaid laid items pieces := by
  induction count generalizing found with
  | zero =>
    refine (Reads.pure found.reverse).congr fun result words => ?_
    constructor
    · rintro ⟨rfl, hpieces⟩
      rw [hpieces]
      exact ⟨[], (List.append_nil _).symm, rfl, .nil⟩
    · rintro ⟨items, rfl, hlength, hitems⟩
      obtain rfl := List.length_eq_zero_iff.mp hlength
      generalize piecesOf words = pieces at hitems ⊢
      cases hitems
      exact ⟨List.append_nil _, rfl⟩
  | succ count ih =>
    have hmany : Reader.many item (count + 1) found =
        fun input => item input >>= fun x => Reader.many item count (x.1 :: found) x.2 := by
      funext input
      rw [Reader.many]
      cases item input <;> rfl
    rw [hmany]
    refine Reads.congr (hitem.bind fun a => ih (a :: found)) fun result words => ?_
    constructor
    · rintro ⟨a, xs, ys, hfirst, ⟨items, rfl, rfl, hrest⟩, hpieces⟩
      rw [hpieces]
      exact ⟨a :: items, by simp, rfl, .cons hfirst hrest⟩
    · rintro ⟨items, rfl, hlength, hitems⟩
      generalize piecesOf words = pieces at hitems ⊢
      cases hitems with
      | nil => cases hlength
      | cons hfirst hrest => exact ⟨_, _, _, hfirst, ⟨_, by simp, Nat.succ.inj hlength, hrest⟩, rfl⟩

theorem reads_all {α : Type} {limit : Nat} {item : Reader α} {laid : α → List Piece → Prop}
    (hitem : Reads limit item laid)
    (count : Nat) : Reads limit (Reader.many item count []) fun items pieces =>
      items.length = count ∧ AllLaid laid items pieces := by
  refine (reads_many hitem count []).congr fun items words => ?_
  constructor
  · rintro ⟨items, rfl, hitems⟩
    exact hitems
  · exact fun hitems => ⟨items, rfl, hitems⟩

/-! ### Constants -/

/-- The number of some bytes, the lowest first. -/
def numberOf (bytes : List UInt8) : Nat := bytes.foldr (fun b high => b.toNat + 256 * high) 0

theorem numberOf_lt (bytes : List UInt8) : numberOf bytes < 256 ^ bytes.length := by
  induction bytes with
  | nil => exact Nat.one_pos
  | cons b bytes ih =>
    have hb := b.toNat_lt
    rw [List.length_cons, Nat.pow_succ, numberOf, List.foldr_cons]
    rw [numberOf] at ih
    omega

theorem bytes_numberOf (bytes : List UInt8) :
    (List.range bytes.length).map (fun i => UInt8.ofNat (numberOf bytes / Nat.pow 256 i)) = bytes := by
  induction bytes with
  | nil => rfl
  | cons b bytes ih =>
    have hb := b.toNat_lt
    have hvalue : numberOf (b :: bytes) = b.toNat + 256 * numberOf bytes := rfl
    have hfirst : UInt8.ofNat (numberOf (b :: bytes) / Nat.pow 256 0) = b := by
      apply UInt8.toNat_inj.mp
      rw [hvalue, UInt8.toNat_ofNat']
      show (b.toNat + 256 * numberOf bytes) / 1 % 2 ^ 8 = b.toNat
      omega
    have hnext : ∀ i, numberOf (b :: bytes) / Nat.pow 256 (i + 1) = numberOf bytes / Nat.pow 256 i := by
      intro i
      have hscale : Nat.pow 256 (i + 1) = 256 * Nat.pow 256 i := Nat.pow_succ'
      have hdiv : (b.toNat + 256 * numberOf bytes) / 256 = numberOf bytes := by omega
      rw [hscale, ← Nat.div_div_eq_div_mul, hvalue, hdiv]
    rw [List.length_cons, List.range_succ_eq_map, List.map_cons, List.map_map, hfirst]
    refine congrArg (b :: ·) (Eq.trans (List.map_congr_left fun i _ => ?_) ih)
    exact congrArg UInt8.ofNat (hnext i)

theorem numberBytes_bitsOf {bytes : List UInt8} (h : bytes.length = 8) :
    numberBytes (Reader.bitsOf bytes) = bytes := by
  have hlt := numberOf_lt bytes
  have hbytes := bytes_numberOf bytes
  rw [h] at hlt hbytes
  have hvalue : (Reader.bitsOf bytes).toNat = numberOf bytes := UInt64.toNat_ofNat_of_lt' hlt
  rw [numberBytes, hvalue]
  exact hbytes

theorem length_numberBytes (bits : UInt64) : (numberBytes bits).length = 8 := by
  rw [numberBytes, List.length_map, List.length_range]

/-- The pieces of each kind of constant. -/
theorem pieces?_eq_some {constant : Constant} {pieces : List Piece} : constant.pieces? = some pieces ↔
    match constant with
    | .nil => pieces = [.number 32 0]
    | .bool b => pieces = [.number 32 1, .raw [if b then 1 else 0]]
    | .number bits => pieces = [.number 32 2, .raw (numberBytes bits)]
    | .string text => pieces = .number 32 3 :: .number 32 0 :: textPieces text
    | .function f => ∃ body, f.pieces? = some body ∧ pieces = .number 32 3 :: .number 32 1 :: body
    | .native _ => False := by
  cases constant with
  | function f =>
    rw [Constant.pieces?]
    cases hbody : f.pieces? <;> simp [hbody, eq_comm]
  | _ => simp [Constant.pieces?, eq_comm]

section

variable {limit : Nat}

theorem reads_bool : Reads limit (fun input => do
    let (b, input) ← Reader.byte input
    if b = 0 then .ok (Constant.bool false, input)
    else if b = 1 then .ok (Constant.bool true, input)
    else .error .badBool) fun constant pieces => constant.pieces? = some (.number 32 1 :: pieces) := by
  refine reads_byte.bind_head (fun b => Reads.ite (fun h => ?_) fun hzero =>
      Reads.ite (fun h => ?_) fun hone => ?_)
    fun constant rest h => ?_
  · refine (Reads.pure (Constant.bool false)).congr fun constant words => ?_
    rw [pieces?_eq_some]
    cases constant <;> simp [h]
  · refine (Reads.pure (Constant.bool true)).congr fun constant words => ?_
    rw [pieces?_eq_some]
    cases constant <;> simp [h]
  · refine (Reads.fail .badBool).congr fun constant words => ?_
    rw [pieces?_eq_some]
    cases constant with
    | bool value => cases value <;> simp [hzero, hone]
    | _ => simp
  · rw [pieces?_eq_some] at h
    cases constant <;> simp at h
    exact ⟨_, _, h⟩

theorem reads_number : Reads limit (fun input => do
    let (bytes, input) ← Reader.take 8 input
    .ok (Constant.number (Reader.bitsOf bytes), input))
    fun constant pieces => constant.pieces? = some (.number 32 2 :: pieces) := by
  refine ((reads_take 8).map fun bytes => Constant.number (Reader.bitsOf bytes)).congr fun constant words => ?_
  rw [pieces?_eq_some]
  cases constant with
  | number bits =>
    simp only [Constant.number.injEq, List.cons.injEq, true_and]
    constructor
    · rintro ⟨bytes, rfl, hlength, hpieces⟩
      rw [hpieces, numberBytes_bitsOf hlength]
    · intro hpieces
      exact ⟨numberBytes bits, (bitsOf_numberBytes bits).symm, length_numberBytes bits, hpieces⟩
  | _ => simp

variable {function : Reader Function} (hfunction : Reads limit function fun f pieces => f.pieces? = some pieces)

include hfunction

theorem reads_object : Reads limit (fun input => do
    let (kind, input) ← Reader.varint32 input
    match kind with
    | 0 =>
      let (s, input) ← Reader.text input
      .ok (Constant.string s, input)
    | 1 =>
      let (f, input) ← function input
      .ok (Constant.function f, input)
    | _ => .error .badTag) fun constant pieces => constant.pieces? = some (.number 32 3 :: pieces) := by
  refine reads_varint32.bind_head (fun kind => ?_) fun constant rest h => ?_
  · rcases kind with _ | _ | kind
    · refine (reads_text.map Constant.string).congr fun constant words => ?_
      rw [pieces?_eq_some]
      cases constant <;> simp
    · refine (hfunction.map Constant.function).congr fun constant words => ?_
      rw [pieces?_eq_some]
      cases constant <;> simp
    · refine (Reads.fail .badTag).congr fun constant words => ?_
      rw [pieces?_eq_some]
      cases constant <;> simp
  · rw [pieces?_eq_some] at h
    cases constant <;> simp at h
    · exact ⟨_, _, h⟩
    · obtain ⟨body, -, h⟩ := h
      exact ⟨_, _, h⟩

theorem reads_constant : Reads limit (Reader.constant function) fun constant pieces =>
    constant.pieces? = some pieces := by
  refine reads_varint32.bind_head (fun tag => ?_) fun constant pieces h => ?_
  · rcases tag with _ | _ | _ | _ | tag
    · refine (Reads.pure Constant.nil).congr fun constant words => ?_
      rw [pieces?_eq_some]
      cases constant <;> simp
    · exact reads_bool
    · exact reads_number
    · exact reads_object hfunction
    · refine (Reads.fail .badTag).congr fun constant words => ?_
      rw [pieces?_eq_some]
      cases constant <;> simp
  · rw [pieces?_eq_some] at h
    cases constant with
    | native _ => exact h.elim
    | function f =>
      obtain ⟨body, -, h⟩ := h
      exact ⟨_, _, h⟩
    | _ => exact ⟨_, _, h⟩

end

/-! ### Functions -/

theorem lt_of_mem_piecesOf {words : List Word} {bits n : Nat} (h : .number bits n ∈ piecesOf words) :
    n < 2 ^ bits := by
  obtain ⟨⟨_, _, hspelt⟩, -, rfl⟩ := List.mem_map.mp h
  cases hspelt with
  | number _ hfits _ => exact hfits

theorem allLaid_number_iff {bits : Nat} {numbers : List Nat} {pieces : List Piece} :
    AllLaid (fun n pieces => pieces = [.number bits n]) numbers pieces ↔
      pieces = numbers.map (.number bits) := by
  constructor
  · intro h
    induction h with
    | nil => rfl
    | cons hfirst _ ih => rw [hfirst, ih, List.map_cons, List.singleton_append]
  · rintro rfl
    induction numbers with
    | nil => exact .nil
    | cons n numbers ih =>
      have hfirst : Piece.number bits n :: numbers.map (.number bits) = [.number bits n] ++ numbers.map
          (.number bits) := rfl
      rw [List.map_cons, hfirst]
      exact .cons rfl ih

theorem allLaid_pieces?_iff {constants : List Constant} {pieces : List Piece} :
    AllLaid (fun constant pieces => constant.pieces? = some pieces) constants pieces ↔
      Constant.allPieces? constants = some pieces := by
  constructor
  · intro h
    induction h with
    | nil => rfl
    | cons hfirst _ ih =>
      rw [Constant.allPieces?, hfirst, ih]
      rfl
  · intro h
    induction constants generalizing pieces with
    | nil =>
      cases h
      exact .nil
    | cons constant constants ih =>
      obtain ⟨first, hfirst, h⟩ := Option.bind_eq_some_iff.mp h
      obtain ⟨rest, hrest, h⟩ := Option.bind_eq_some_iff.mp h
      cases h
      exact .cons hfirst (ih hrest)

/-- The numbers that are read as lines are the lines that they are kept as. -/
theorem map_lines (words : List Word) {numbers : List Nat} (h : ∀ n ∈ numbers, .number 32 n ∈ piecesOf words) :
    (numbers.map UInt32.ofNat).map (fun line => Piece.number 32 line.toNat) = numbers.map (.number 32) := by
  rw [List.map_map]
  refine List.map_congr_left fun n hn => ?_
  exact congrArg (Piece.number 32) (UInt32.toNat_ofNat_of_lt' (lt_of_mem_piecesOf (h n hn)))

/-- The pieces of a function, one part after the other. -/
theorem function_pieces?_eq_some {arity : UInt8} {code : List UInt8} {lines : List UInt32}
    {constants : List Constant} {name : Option String} {pieces : List Piece} :
    (Function.mk arity ⟨code.toArray, lines.toArray, constants⟩ name).pieces? = some pieces ↔
      ∃ pool, Constant.allPieces? constants = some pool ∧
      pieces = .raw [arity] :: .number 64 code.length :: .raw code ::
        .number 64 lines.length :: (lines.map (fun line => .number 32 line.toNat) ++
        .number 64 constants.length :: (pool ++ namePieces name)) := by
  rw [Function.pieces?, Chunk.pieces?]
  cases Constant.allPieces? constants <;> simp [eq_comm]

/-- A function is read from exactly the words of its pieces, to a depth of as many functions
    as there are bytes. -/
theorem reads_function (depth : Nat) : Reads depth (Reader.function depth) fun f pieces =>
    f.pieces? = some pieces := by
  induction depth with
  | zero =>
    refine ⟨fun h => ?_, fun {f words} hlaid hlength => ?_, fun _ _ _ _ => rfl⟩
    · cases h
    · obtain ⟨arity, ⟨⟨code⟩, ⟨lines⟩, constants⟩, name⟩ := f
      obtain ⟨pool, -, hpieces⟩ := function_pieces?_eq_some.mp hlaid
      obtain ⟨⟨_, _, hspelt⟩, words, rfl, rfl, -⟩ := List.map_eq_cons_iff.mp hpieces
      cases hspelt
      cases hlength
  | succ depth ih =>
    refine Reads.congr (Reads.byte_bind fun arity => reads_counted reads_take fun code =>
      reads_counted (reads_all reads_varint32) fun lines =>
        reads_counted (reads_all (reads_constant ih)) fun constants =>
      reads_name.map fun name => Function.mk arity ⟨code.toArray, (lines.map UInt32.ofNat).toArray,
        constants⟩ name)
      fun f words => ?_
    constructor
    · rintro ⟨arity, _, ⟨code, _, _, rfl,
        ⟨lines, _, _, hlines, ⟨constants, pool, _, hpool, ⟨name, rfl, rfl⟩, rfl⟩, rfl⟩, rfl⟩, hpieces⟩
      obtain rfl := allLaid_number_iff.mp hlines
      refine function_pieces?_eq_some.mpr ⟨pool, allLaid_pieces?_iff.mp hpool, ?_⟩
      rw [map_lines words fun n hn => ?_, List.length_map]
      · exact hpieces
      · rw [hpieces]
        simp [hn]
    · obtain ⟨arity, ⟨⟨code⟩, ⟨lines⟩, constants⟩, name⟩ := f
      intro h
      obtain ⟨pool, hpool, hpieces⟩ := function_pieces?_eq_some.mp h
      have hlines : AllLaid (fun n pieces => pieces = [.number 32 n]) (lines.map UInt32.toNat)
          (lines.map fun line => .number 32 line.toNat) := allLaid_number_iff.mpr (List.map_map ..).symm
      have hkept : (lines.map UInt32.toNat).map UInt32.ofNat = lines := by
        rw [List.map_map]
        refine (List.map_congr_left fun line _ => ?_).trans (List.map_id _)
        exact UInt32.ofNat_toNat
      have hf : Function.mk arity ⟨code.toArray, lines.toArray, constants⟩ name =
          Function.mk arity ⟨code.toArray, ((lines.map UInt32.toNat).map UInt32.ofNat).toArray,
          constants⟩ name := by
        rw [hkept]
      refine ⟨arity, _, ⟨code, _, _, rfl, ⟨_, _, _, hlines, ⟨constants, pool, _, allLaid_pieces?_iff.mpr hpool,
        ⟨name, hf, rfl⟩, rfl⟩, rfl⟩, rfl⟩, ?_⟩
      rw [List.length_map]
      exact hpieces

/-! ### Images -/

/-- The bytes before the words of an image: the mark and the version. -/
def header : List UInt8 := [0x4c, 0x58, 0x42, 0x43, highByte version, lowByte version]

/-- Some words after the header are an image of a script. -/
def Renders (words : List Word) (f : Function) (image : List UInt8) : Prop :=
  f.pieces? = some (piecesOf words) ∧ image = header ++ bytesOf words

variable {f : Function} {image : List UInt8}

theorem encode_eq_ok_iff : encode f = .ok image ↔ ∃ pieces, f.pieces? = some pieces ∧
    image = header ++ written pieces := by
  rw [encode, f.encode?_eq]
  cases f.pieces? with
  | none => simp
  | some pieces => simp [header, eq_comm]

/-- The bytes after the header are read as a function, of which there are no more levels than bytes. -/
theorem decode_header (body : List UInt8) : decode (header ++ body) =
    match Reader.function (body.length + 1) body with
    | .error problem => .error (.decode problem)
    | .ok (script, []) =>
      match script.verify with
      | .ok () => .ok script
      | .error defect => .error (.verify defect)
    | .ok (_, rest) => .error (.trailingBytes rest.length) := rfl

/-- What is loaded begins with the header. -/
theorem exists_of_decode_eq_ok (h : decode image = .ok f) : ∃ body, image = header ++ body := by
  unfold decode at h
  split at h
  · rename_i high low body
    split at h
    · rename_i hversion
      refine ⟨body, ?_⟩
      rw [header, ← hversion, highByte_wordOfBytes, lowByte_wordOfBytes]
      rfl
    · cases h
  · cases h

/-- What comes of loading an image of a script: the script if it verifies, and otherwise its defect. -/
theorem Renders.decode_eq {words : List Word} (h : Renders words f image) :
    decode image = (f.verify.mapError .verify).map fun _ => f := by
  obtain ⟨hpieces, rfl⟩ := h
  have hread := (reads_function ((bytesOf words).length + 1)).complete hpieces (Nat.le_succ _) []
  rw [List.append_nil] at hread
  rw [decode_header, hread]
  dsimp only
  cases f.verify <;> rfl

/-- A script is loaded from exactly the words of its pieces after the header, and only if it verifies. -/
theorem decode_eq_ok_iff : decode image = .ok f ↔ f.verify = .ok () ∧ ∃ words, Renders words f image := by
  constructor
  · intro h
    obtain ⟨body, rfl⟩ := exists_of_decode_eq_ok h
    rw [decode_header] at h
    split at h
    · cases h
    · rename_i script hread
      split at h
      · rename_i hverify
        cases h
        obtain ⟨words, hpieces, hbody⟩ := (reads_function _).sound hread
        rw [List.append_nil] at hbody
        exact ⟨hverify, words, hpieces, congrArg (header ++ ·) hbody⟩
      · cases h
    · cases h
  · rintro ⟨hverify, words, h⟩
    rw [h.decode_eq, hverify]
    rfl

end Image

end Lox
