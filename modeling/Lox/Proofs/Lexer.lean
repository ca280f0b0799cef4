import Mathlib.Data.List.TakeWhile
import Lox.Proofs.Scan

/-! # Scanning bytes

A scanner that has only the bytes of a text. It knows where its token begins and which byte it reads, and
looks at most one byte ahead. It takes each lexeme as a slice of the text, which there is only if it begins
and ends between characters, and each of its loops may go round only so often. For every text it comes to the
end and finds the tokens of the text. -/

namespace Lox.Token

/-- The state of a scanner of bytes. -/
structure Lexer where
  bytes : List UInt8
  /-- Where the token begins. -/
  start : Nat := 0
  /-- The place of the byte that is read. -/
  current : Nat := 0
  line : UInt32 := 1

namespace Lexer

/-! ### The scanner -/

/-- The byte that is read, as the character of its number. -/
def current? (l : Lexer) : Option Char := l.bytes[l.current]?.map Char.ofUInt8

/-- The byte after the one that is read. -/
def peek? (l : Lexer) : Option Char := l.bytes[l.current + 1]?.map Char.ofUInt8

/-- Goes on by one byte. -/
def advance (l : Lexer) : Lexer := { l with current := l.current + 1 }

/-- All bytes have been read. -/
def isAtEnd (l : Lexer) : Bool := l.bytes.length ≤ l.current

/-- A byte that is not the first one of its character. -/
def continues (byte : UInt8) : Bool := 128 ≤ byte && byte < 192

/-- A place between characters: at the beginning, at the end, or before a byte that does not
    continue a character. -/
def isBoundary (l : Lexer) (place : Nat) : Bool :=
  place == 0 || match l.bytes[place]? with
    | some byte => !continues byte
    | none => place == l.bytes.length

/-- The text from the beginning of the token up to the byte that is read, if it is cut between characters. -/
def slice? (l : Lexer) : Option String :=
  if l.start ≤ l.current ∧ l.isBoundary l.start = true ∧ l.isBoundary l.current = true then
    String.fromUTF8? ((l.bytes.drop l.start).take (l.current - l.start)).toByteArray
  else none

/-- A token of the text that was read since its beginning. -/
def make? (l : Lexer) (kind : Kind) : Option (Token × Lexer) :=
  l.slice?.map fun lexeme => (⟨kind, lexeme, l.line⟩, l)

/-- A token that reports an error. -/
def error (l : Lexer) (message : String) : Token × Lexer := (⟨.error, message, l.line⟩, l)

/-- Goes on as long as `goes` holds; `none` if that is for `fuel` bytes or more. -/
def advanceWhile? (goes : Lexer → Bool) : (fuel : Nat) → Lexer → Option Lexer
  | 0, _ => none
  | fuel + 1, l => if goes l then advanceWhile? goes fuel l.advance else some l

/-- The byte that is read is in a class of characters. -/
def reads (p : Char → Bool) (l : Lexer) : Bool := l.current?.any p

/-- Passes over blanks, line breaks and comments. -/
def skipGap? : (fuel : Nat) → Lexer → Option Lexer
  | 0, _ => none
  | fuel + 1, l =>
    match l.current? with
    | some c =>
      if c = ' ' ∨ c = '\r' ∨ c = '\t' then skipGap? fuel l.advance
      else if c = '\n' then skipGap? fuel { l.advance with line := l.line + 1 }
      else if c = '/' ∧ l.peek? = some '/' then
        (l.advanceWhile? (reads (· != '\n')) (fuel + 1)).bind (skipGap? fuel)
      else some l
    | none => some l

/-- Passes over the inside of a string. -/
def skipString? : (fuel : Nat) → Lexer → Option Lexer
  | 0, _ => none
  | fuel + 1, l =>
    match l.current? with
    | some c =>
      if c = '"' then some l
      else skipString? fuel { l.advance with line := if c = '\n' then l.line + 1 else l.line }
    | none => some l

/-- The rest of a string after its first quote. -/
def readString? (fuel : Nat) (l : Lexer) : Option (Token × Lexer) := do
  let l ← l.skipString? fuel
  if l.isAtEnd then return l.error "Unterminated string." else l.advance.make? .string

/-- The rest of a number after its first digit. A point belongs to it only with a digit after the point. -/
def readNumber? (fuel : Nat) (l : Lexer) : Option (Token × Lexer) := do
  let l ← l.advanceWhile? (reads Char.isDigit) fuel
  if l.current? = some '.' ∧ l.peek?.any Char.isDigit then
    (← l.advance.advanceWhile? (reads Char.isDigit) fuel).make? .number
  else l.make? .number

/-- The rest of an identifier or keyword after its first character. -/
def readWord? (fuel : Nat) (l : Lexer) : Option (Token × Lexer) := do
  let l ← l.advanceWhile? (reads continuesWord) fuel
  l.make? (Kind.ofWord (← l.slice?))

/-- An operator that may have an equals sign after its first character. -/
def readOperator? (l : Lexer) (short long : Kind) : Option (Token × Lexer) :=
  if l.current? = some '=' then l.advance.make? long else l.make? short

/-- A character that starts no token. Its further bytes are passed over up to the next place
    between characters. -/
def readUnexpected? (fuel : Nat) (l : Lexer) : Option (Token × Lexer) :=
  (l.advanceWhile? (fun l => !l.isAtEnd && !l.isBoundary l.current) fuel).map (·.error "Unexpected character.")

/-- The token whose first byte, `first`, has been read. -/
def readFrom? (fuel : Nat) (first : Char) (l : Lexer) : Option (Token × Lexer) :=
  if startsWord first then l.readWord? fuel
  else if first.isDigit then l.readNumber? fuel
  else match first with
    | '(' => l.make? .leftParen
    | ')' => l.make? .rightParen
    | '{' => l.make? .leftBrace
    | '}' => l.make? .rightBrace
    | ',' => l.make? .comma
    | ';' => l.make? .semicolon
    | '-' => l.make? .minus
    | '+' => l.make? .plus
    | '/' => l.make? .slash
    | '*' => l.make? .star
    | '!' => l.readOperator? .bang .bangEqual
    | '=' => l.readOperator? .equal .equalEqual
    | '<' => l.readOperator? .less .lessEqual
    | '>' => l.readOperator? .greater .greaterEqual
    | '"' => l.readString? fuel
    | _ => l.readUnexpected? fuel

/-- The next token. -/
def next? (fuel : Nat) (l : Lexer) : Option (Token × Lexer) := do
  let l ← l.skipGap? fuel
  let l := { l with start := l.current }
  match l.current? with
  | none => make? { l with current := l.bytes.length } .endOfInput
  | some first => l.advance.readFrom? fuel first

/-- The tokens after those in `found`, up to the end of the input; `none` if there are
    `count` tokens or more. -/
def tokensUpTo? (fuel : Nat) : (count : Nat) → Lexer → (found : Array Token) → Option (Array Token)
  | 0, _, _ => none
  | count + 1, l, found => do
    let (token, l) ← l.next? fuel
    if token.kind = .endOfInput then return found.push token else tokensUpTo? fuel count l (found.push token)

/-- The tokens of a text, scanned byte by byte; `none` if a slice is not cut between characters or a
    loop does not end. -/
def tokens? (source : String) : Option (List Token) :=
  let l : Lexer := { bytes := source.toUTF8.data.toList }
  (l.tokensUpTo? (l.bytes.length + 1) (l.bytes.length + 1) #[]).map (·.toList)

/-! ### The bytes of characters -/

/-- The bytes of a text. -/
def encode (text : List Char) : List UInt8 := text.flatMap String.utf8EncodeChar

@[simp] theorem encode_nil : encode [] = [] := rfl

@[simp] theorem encode_cons (c : Char) (text : List Char) :
    encode (c :: text) = String.utf8EncodeChar c ++ encode text := rfl

@[simp] theorem encode_append (a b : List Char) : encode (a ++ b) = encode a ++ encode b := List.flatMap_append

/-- A character below 128 is one byte. Another has several: the first is not below 192, and the others are
    from 128 up to 191. -/
theorem utf8EncodeChar_cases (c : Char) :
    (c.toNat < 128 ∧ String.utf8EncodeChar c = [c.toUInt8]) ∨
    (128 ≤ c.toNat ∧ ∃ first more, String.utf8EncodeChar c = first :: more ∧ 192 ≤ first.toNat ∧
      ∀ byte ∈ more, 128 ≤ byte.toNat ∧ byte.toNat < 192) := by
  have hval : c.val.toNat = c.toNat := rfl
  unfold String.utf8EncodeChar
  simp only [hval]
  split_ifs with hone htwo hthree
  · exact .inl ⟨by omega, rfl⟩
  · refine .inr ⟨by omega, _, _, rfl, ?_, ?_⟩ <;> simp <;> omega
  · refine .inr ⟨by omega, _, _, rfl, ?_, ?_⟩ <;> simp <;> omega
  · refine .inr ⟨by omega, _, _, rfl, ?_, ?_⟩ <;> simp <;> omega

theorem toNat_toUInt8 {c : Char} (h : c.toNat < 128) : c.toUInt8.toNat = c.toNat := by
  rw [Char.toUInt8, UInt32.toNat_toUInt8]
  exact Nat.mod_eq_of_lt (Nat.lt_trans h (by decide))

/-- No text begins with a byte that continues a character. -/
theorem takeWhile_continues (text : List Char) : (encode text).takeWhile continues = [] := by
  cases text with
  | nil => rfl
  | cons c text =>
    rw [encode_cons]
    rcases utf8EncodeChar_cases c with ⟨hc, hbytes⟩ | ⟨-, first, more, hbytes, hfirst, -⟩ <;> rw [hbytes]
    · have hlow : ¬128 ≤ c.toUInt8 := by
        rw [UInt8.le_iff_toNat_le, toNat_toUInt8 hc]
        exact Nat.not_le_of_lt hc
      have hbyte : continues c.toUInt8 = false := by simp [continues, hlow]
      exact List.takeWhile_cons_of_neg (Bool.eq_false_iff.mp hbyte)
    · have hbyte : continues first = false := by
        simp [continues, UInt8.lt_iff_toNat_lt, hfirst]
      exact List.takeWhile_cons_of_neg (Bool.eq_false_iff.mp hbyte)

theorem fromUTF8_encode (text : List Char) :
    String.fromUTF8? (encode text).toByteArray = some (String.ofList text) := by
  have hvalid : (encode text).toByteArray.IsValidUTF8 := (String.ofList text).isValidUTF8
  rw [String.fromUTF8?, dif_pos hvalid]
  rfl

theorem toNat_ofUInt8 (byte : UInt8) : (Char.ofUInt8 byte).toNat = byte.toNat := rfl

theorem ofUInt8_toUInt8 {c : Char} (h : c.toNat < 128) : Char.ofUInt8 c.toUInt8 = c :=
  Char.toNat_inj.mp ((toNat_ofUInt8 _).trans (toNat_toUInt8 h))

theorem ne_of_wide {c d : Char} (hc : 128 ≤ c.toNat) (hd : d.toNat < 128) : c ≠ d := by
  rintro rfl
  omega

/-- A class of characters that has all of those from 128 up or none. -/
def Blind (p : Char → Bool) : Prop := ∀ c d : Char, 128 ≤ c.toNat → 128 ≤ d.toNat → p c = p d

section

variable {p : Char → Bool} {c : Char}

theorem blind_of_false (h : ∀ c : Char, 128 ≤ c.toNat → p c = false) : Blind p :=
  fun c d hc hd => (h c hc).trans (h d hd).symm

/-- Words are made of characters below 128. -/
theorem continuesWord_wide (h : 128 ≤ c.toNat) : continuesWord c = false := by
  have hword : continuesWord c = (decide ('A'.val ≤ c.val ∧ c.val ≤ 'Z'.val) ||
      (decide ('a'.val ≤ c.val) && decide (c.val ≤ 'z'.val)) ||
        (decide ('0'.val ≤ c.val) && decide (c.val ≤ '9'.val)) ||
      c == '_') := rfl
  refine Bool.eq_false_iff.mpr fun hcontinues => ?_
  simp only [hword, Bool.or_eq_true, Bool.and_eq_true, decide_eq_true_eq, beq_iff_eq] at hcontinues
  rcases hcontinues with ((⟨-, hlast⟩ | ⟨-, hlast⟩) | ⟨-, hlast⟩) | rfl
  · exact absurd (Nat.le_trans h hlast) (by decide)
  · exact absurd (Nat.le_trans h hlast) (by decide)
  · exact absurd (Nat.le_trans h hlast) (by decide)
  · exact absurd h (by decide)

theorem startsWord_wide (h : 128 ≤ c.toNat) : startsWord c = false := by
  have hword := continuesWord_wide h
  simp only [continuesWord, Char.isAlphanum, Bool.or_eq_false_iff] at hword
  rw [startsWord, hword.1.1, hword.2, Bool.or_false]

theorem isDigit_wide (h : 128 ≤ c.toNat) : c.isDigit = false := by
  have hword := continuesWord_wide h
  simp only [continuesWord, Char.isAlphanum, Bool.or_eq_false_iff] at hword
  exact hword.1.2

theorem blind_ne {d : Char} (hd : d.toNat < 128) : Blind (· != d) := by
  intro b c hb hc
  have hne {e : Char} (he : 128 ≤ e.toNat) : (e != d) = true := bne_iff_ne.mpr (ne_of_wide he hd)
  exact (hne hb).trans (hne hc).symm

/-- A class takes the bytes of a character for what it takes the character for. -/
theorem Blind.byte (hp : Blind p) {byte : UInt8} (h : byte ∈ String.utf8EncodeChar c) :
    p (Char.ofUInt8 byte) = p c := by
  rcases utf8EncodeChar_cases c with ⟨hc, hbytes⟩ | ⟨hc, first, more, hbytes, hfirst, hmore⟩ <;>
    rw [hbytes] at h
  · rw [List.mem_singleton.mp h, ofUInt8_toUInt8 hc]
  · refine hp _ _ ?_ hc
    rw [toNat_ofUInt8]
    rcases List.mem_cons.mp h with rfl | h
    · omega
    · exact (hmore _ h).1

/-- The bytes at the head of a text that are in a class are those of the characters that are in it. -/
theorem Blind.takeWhile (hp : Blind p) (text : List Char) :
    (encode text).takeWhile (p ∘ Char.ofUInt8) = encode (text.takeWhile p) := by
  induction text with
  | nil => rfl
  | cons c text ih =>
    cases hc : p c with
    | true =>
      have hall : ∀ byte ∈ String.utf8EncodeChar c, (p ∘ Char.ofUInt8) byte = true := fun byte hbyte =>
        (hp.byte hbyte).trans hc
      rw [encode_cons, List.takeWhile_append_of_pos hall, ih, List.takeWhile_cons_of_pos hc, encode_cons]
    | false =>
      obtain ⟨first, more, hbytes⟩ := List.exists_cons_of_ne_nil (@String.utf8EncodeChar_ne_nil c)
      have hfirst : ¬(p ∘ Char.ofUInt8) first = true := by
        rw [Function.comp_apply, hp.byte (hbytes ▸ List.mem_cons_self), hc]
        exact Bool.false_ne_true
      rw [encode_cons, hbytes, List.cons_append, List.takeWhile_cons_of_neg hfirst,
        List.takeWhile_cons_of_neg (Bool.eq_false_iff.mp hc), encode_nil]

end

/-! ### A scanner in a text -/

/-- The scanner has read `before` of a text and has `after` before it. -/
structure At (l : Lexer) (before after : List Char) : Prop where
  bytes : l.bytes = encode before ++ encode after
  current : l.current = (encode before).length

variable {l : Lexer} {before piece after rest : List Char} {c : Char} {fuel : Nat}

/-- The scanner after a piece of the text. -/
def past (l : Lexer) (piece : List Char) : Lexer := { l with current := l.current + (encode piece).length }

theorem At.past (h : l.At before (piece ++ rest)) : (l.past piece).At (before ++ piece) rest where
  bytes := by
    show l.bytes = _
    rw [h.bytes, encode_append, encode_append, List.append_assoc]
  current := by
    show l.current + _ = _
    rw [h.current, encode_append, List.length_append]

theorem At.past_cons (h : l.At before (c :: rest)) : (l.past [c]).At (before ++ [c]) rest := by
  have hone : l.At before ([c] ++ rest) := h
  exact hone.past

theorem At.getElem? (h : l.At before after) (k : Nat) : l.bytes[l.current + k]? = (encode after)[k]? := by
  rw [h.bytes, h.current, List.getElem?_append_right (Nat.le_add_right _ _), Nat.add_sub_cancel_left]

theorem At.drop (h : l.At before after) : l.bytes.drop l.current = encode after := by
  rw [h.bytes, h.current, List.drop_left]

theorem At.current?_nil (h : l.At before []) : l.current? = none := by
  have hbyte := h.getElem? 0
  rw [Nat.add_zero] at hbyte
  rw [current?, hbyte]
  rfl

/-- A character below 128 is read as it is. Of another a byte from 128 up is read. -/
theorem At.current?_cons (h : l.At before (c :: rest)) : (c.toNat < 128 ∧ l.current? = some c) ∨
    (128 ≤ c.toNat ∧ ∃ d, 128 ≤ d.toNat ∧ l.current? = some d) := by
  have hbyte := h.getElem? 0
  rw [Nat.add_zero, encode_cons] at hbyte
  rcases utf8EncodeChar_cases c with ⟨hc, hbytes⟩ | ⟨hc, first, more, hbytes, hfirst, -⟩ <;>
    rw [hbytes] at hbyte
  · left
    refine ⟨hc, ?_⟩
    rw [current?, hbyte]
    exact congrArg some (ofUInt8_toUInt8 hc)
  · right
    refine ⟨hc, Char.ofUInt8 first, ?_, ?_⟩
    · rw [toNat_ofUInt8]
      omega
    · rw [current?, hbyte]
      rfl

theorem At.current?_of_lt (h : l.At before (c :: rest)) (hc : c.toNat < 128) : l.current? = some c := by
  rcases h.current?_cons with ⟨-, hcurrent⟩ | ⟨hwide, -⟩
  · exact hcurrent
  · omega

theorem advance_eq_past (hc : c.toNat < 128) : l.advance = l.past [c] := by
  rcases utf8EncodeChar_cases c with ⟨-, hbytes⟩ | ⟨hwide, -⟩
  · rw [Lexer.past, encode_cons, hbytes]
    rfl
  · omega

/-- After a character below 128 that is read, the next one is seen in the same way. -/
theorem At.advance (h : l.At before (c :: rest)) (hc : c.toNat < 128) : l.advance.At (before ++ [c]) rest := by
  rw [advance_eq_past hc]
  exact h.past_cons

theorem peek?_eq (l : Lexer) : l.peek? = l.advance.current? := rfl

/-- To see an ASCII character is to have it next. -/
theorem At.current?_eq_some_iff (h : l.At before after) {d : Char} (hd : d.toNat < 128) :
    l.current? = some d ↔ after.head? = some d := by
  cases after with
  | nil => rw [h.current?_nil, List.head?_nil]
  | cons c rest =>
    rcases h.current?_cons with ⟨-, hcurrent⟩ | ⟨hc, e, he, hcurrent⟩ <;> rw [hcurrent, List.head?_cons]
    refine iff_of_false (fun heq => ?_) fun heq => ?_ <;> cases heq <;> omega

/-- A class of what is read is told by the character that comes next. -/
theorem At.reads {p : Char → Bool} (h : l.At before after) (hp : Blind p) :
    Lexer.reads p l = after.head?.any p := by
  cases after with
  | nil => rw [Lexer.reads, h.current?_nil, List.head?_nil]
  | cons c rest =>
    rcases h.current?_cons with ⟨-, hcurrent⟩ | ⟨hc, d, hd, hcurrent⟩ <;>
      rw [Lexer.reads, hcurrent, List.head?_cons]
    exact hp d c hd hc

theorem At.isAtEnd (h : l.At before after) : l.isAtEnd = after.isEmpty := by
  rw [Lexer.isAtEnd, h.bytes, h.current, List.length_append]
  cases after with
  | nil => simp
  | cons c rest =>
    have hsize := c.utf8Size_pos
    simp
    omega

/-! ### Loops -/

theorem advanceWhile?_eq {goes : Lexer → Bool} {p : UInt8 → Bool} (hfuel : l.bytes.length - l.current < fuel)
    (hgoes : ∀ k, l.current ≤ k → goes { l with current := k } = l.bytes[k]?.any p) :
    l.advanceWhile? goes fuel =
      some { l with current := l.current + ((l.bytes.drop l.current).takeWhile p).length } := by
  induction fuel generalizing l with
  | zero => exact absurd hfuel (Nat.not_lt_zero _)
  | succ fuel ih =>
    have hnow : goes l = l.bytes[l.current]?.any p := hgoes l.current (Nat.le_refl _)
    rw [Lexer.advanceWhile?, hnow]
    cases hbyte : l.bytes[l.current]? with
    | none =>
      rw [List.drop_eq_nil_of_le (List.getElem?_eq_none_iff.mp hbyte)]
      rfl
    | some byte =>
      obtain ⟨hlt, rfl⟩ := List.getElem?_eq_some_iff.mp hbyte
      rw [List.drop_eq_getElem_cons hlt, Option.any_some]
      split
      · rename_i hp
        have hnext := ih (l := l.advance) (by show l.bytes.length - (l.current + 1) < fuel; omega)
          fun k hk => hgoes k (Nat.le_of_succ_le hk)
        rw [hnext, List.takeWhile_cons_of_pos hp, List.length_cons, Nat.add_comm _ 1, ← Nat.add_assoc]
        rfl
      · rename_i hp
        rw [List.takeWhile_cons_of_neg hp]
        rfl

theorem At.length_sub (h : l.At before after) : l.bytes.length - l.current = (encode after).length := by
  rw [h.bytes, h.current, List.length_append, Nat.add_sub_cancel_left]

theorem At.advanceWhile? {p : Char → Bool} (h : l.At before after) (hp : Blind p)
    (hfuel : (encode after).length < fuel) :
    l.advanceWhile? (Lexer.reads p) fuel = some (l.past (after.takeWhile p)) := by
  rw [advanceWhile?_eq (p := p ∘ Char.ofUInt8) (by rwa [h.length_sub]) fun k _ => Option.any_map, h.drop,
    hp.takeWhile]
  rfl

/-! ### Slices -/

theorem isBoundary_length (h : l.bytes = encode before ++ encode after) :
    l.isBoundary (encode before).length = true := by
  have hnone := takeWhile_continues after
  rw [isBoundary, h, List.getElem?_append_right (Nat.le_refl _), Nat.sub_self, Bool.or_eq_true]
  right
  cases htext : encode after with
  | nil => simp
  | cons byte bytes =>
    rw [htext] at hnone
    cases hbyte : continues byte with
    | true => rw [List.takeWhile_cons_of_pos hbyte] at hnone; cases hnone
    | false => simp [hbyte]

/-- What was read since the beginning of the token is cut between characters. -/
theorem At.slice? (h : l.At (before ++ piece) rest) (hstart : l.start = (encode before).length) :
    l.slice? = some (String.ofList piece) := by
  have hbytes : l.bytes = encode before ++ encode (piece ++ rest) := by
    rw [h.bytes, encode_append, encode_append, List.append_assoc]
  have hsize : l.current = (encode before).length + (encode piece).length := by
    rw [h.current, encode_append, List.length_append]
  have hpiece : (l.bytes.drop l.start).take (l.current - l.start) = encode piece := by
    rw [hbytes, hstart, hsize, List.drop_left, Nat.add_sub_cancel_left, encode_append, List.take_left]
  rw [Lexer.slice?, if_pos, hpiece, fromUTF8_encode]
  refine ⟨by omega, ?_, ?_⟩
  · rw [hstart]
    exact isBoundary_length hbytes
  · rw [h.current]
    exact isBoundary_length h.bytes

/-- The scanner has read a token as it is scanned from the text, and has before it what follows the token. -/
def Finds (bytes : List UInt8) (x : Token × List Char) (found : Option (Token × Lexer)) : Prop :=
  ∃ l before, found = some (x.1, l) ∧ l.At before x.2 ∧ l.line = x.1.line ∧ l.bytes = bytes

theorem At.make? (h : l.At (before ++ piece) rest) (hstart : l.start = (encode before).length) (kind : Kind) :
    Finds l.bytes (⟨kind, String.ofList piece, l.line⟩, rest) (l.make? kind) := by
  refine ⟨l, _, ?_, h, rfl, rfl⟩
  rw [Lexer.make?, h.slice? hstart]
  rfl

theorem At.error (h : l.At before rest) (message : String) :
    Finds l.bytes (⟨.error, message, l.line⟩, rest) (some (l.error message)) := ⟨l, before, rfl, h, rfl, rfl⟩

/-! ### Tokens -/

theorem At.readOperator?_long (h : l.At (before ++ piece) ('=' :: rest))
    (hstart : l.start = (encode before).length) (short long : Kind) :
    Finds l.bytes (⟨long, String.ofList (piece ++ ['=']), l.line⟩, rest) (l.readOperator? short long) := by
  have hread := h.advance (by decide)
  rw [List.append_assoc] at hread
  rw [readOperator?, if_pos (h.current?_of_lt (by decide))]
  exact hread.make? hstart long

theorem At.readOperator?_short (h : l.At (before ++ piece) rest) (hstart : l.start = (encode before).length)
    (hnone : rest.head? ≠ some '=') (short long : Kind) :
    Finds l.bytes (⟨short, String.ofList piece, l.line⟩, rest) (l.readOperator? short long) := by
  rw [readOperator?, if_neg fun hcurrent => hnone ((h.current?_eq_some_iff (by decide)).mp hcurrent)]
  exact h.make? hstart short

theorem length_encode_dropWhile_le (p : Char → Bool) (text : List Char) :
    (encode (text.dropWhile p)).length ≤ (encode text).length := by
  nth_rewrite 2 [← List.takeWhile_append_dropWhile (p := p) (l := text)]
  rw [encode_append, List.length_append]
  exact Nat.le_add_left _ _

/-- What a class takes off the head of a text is added to what was read. -/
theorem At.past_takeWhile (h : l.At before rest) (p : Char → Bool) :
    (l.past (rest.takeWhile p)).At (before ++ rest.takeWhile p) (rest.dropWhile p) :=
  At.past (by rwa [List.takeWhile_append_dropWhile])

theorem At.readWord? (h : l.At (before ++ piece) rest) (hstart : l.start = (encode before).length)
    (hfuel : (encode rest).length < fuel) : Finds l.bytes
      (⟨Kind.ofWord (String.ofList (piece ++ rest.takeWhile continuesWord)),
        String.ofList (piece ++ rest.takeWhile continuesWord), l.line⟩, rest.dropWhile continuesWord)
      (l.readWord? fuel) := by
  have hread := h.past_takeWhile continuesWord
  rw [List.append_assoc] at hread
  rw [Lexer.readWord?, h.advanceWhile? (blind_of_false fun c => continuesWord_wide) hfuel]
  dsimp only [bind, Option.bind]
  rw [hread.slice? hstart]
  exact hread.make? hstart _

theorem splitFraction_point (rest : List Char) :
    splitFraction ('.' :: rest) = if rest.head?.any Char.isDigit then
    ('.' :: rest.takeWhile Char.isDigit, rest.dropWhile Char.isDigit) else ([], '.' :: rest) := by
  cases rest with
  | nil => rfl
  | cons c rest =>
    rw [splitFraction, List.span_eq_takeWhile_dropWhile]
    rfl

theorem splitFraction_other {text : List Char} (h : text.head? ≠ some '.') :
    splitFraction text = ([], text) := by
  unfold splitFraction
  split
  · exact absurd rfl h
  · rfl

theorem At.readNumber? (h : l.At (before ++ piece) rest) (hstart : l.start = (encode before).length)
    (hfuel : (encode rest).length < fuel) : Finds l.bytes
      (⟨.number,
        String.ofList
          (piece ++ (rest.takeWhile Char.isDigit ++ (splitFraction (rest.dropWhile Char.isDigit)).1)),
        l.line⟩, (splitFraction (rest.dropWhile Char.isDigit)).2) (l.readNumber? fuel) := by
  have hdigit : Blind Char.isDigit := blind_of_false fun c => isDigit_wide
  have hdigits := h.past_takeWhile Char.isDigit
  rw [List.append_assoc] at hdigits
  have hpoint := hdigits.current?_eq_some_iff (d := '.') (by decide)
  have hlength := length_encode_dropWhile_le Char.isDigit rest
  rw [Lexer.readNumber?, h.advanceWhile? hdigit hfuel]
  dsimp only [bind, Option.bind]
  rw [peek?_eq]
  generalize rest.dropWhile Char.isDigit = left at hdigits hpoint hlength ⊢
  by_cases hnext : left.head? = some '.'
  · obtain ⟨decimals, rfl⟩ := List.head?_eq_some_iff.mp hnext
    have hafter := hdigits.advance (by decide)
    rw [List.append_assoc, List.append_assoc] at hafter
    have hreads : Option.any Char.isDigit (l.past _).advance.current? = _ := hafter.reads hdigit
    rw [if_congr (and_iff_right (hpoint.mpr hnext)) rfl rfl, splitFraction_point, hreads]
    by_cases hfraction : decimals.head?.any Char.isDigit = true
    · have hdecimals := hafter.past_takeWhile Char.isDigit
      simp only [encode_cons, List.length_append] at hlength
      rw [if_pos hfraction, if_pos hfraction, hafter.advanceWhile? hdigit (by omega)]
      simp only [List.append_assoc, List.singleton_append] at hdecimals
      exact hdecimals.make? hstart _
    · rw [if_neg hfraction, if_neg hfraction, List.append_nil]
      exact hdigits.make? hstart _
  · rw [if_neg fun hboth => hnext (hpoint.mp hboth.1), splitFraction_other hnext, List.append_nil]
    exact hdigits.make? hstart _

theorem At.readUnexpected? (h : l.At before (c :: rest)) (hfuel : (encode (c :: rest)).length < fuel) :
    Finds l.bytes (⟨.error, "Unexpected character.", l.line⟩, rest) (l.advance.readUnexpected? fuel) := by
  have hgoes : ∀ k, l.advance.current ≤ k → (fun l : Lexer => !l.isAtEnd && !l.isBoundary l.current)
      { l.advance with current := k } = l.advance.bytes[k]?.any continues := by
    intro k hk
    have hpos : (k == 0) = false :=
      beq_eq_false_iff_ne.mpr (Nat.ne_of_gt (Nat.lt_of_lt_of_le (Nat.succ_pos _) hk))
    dsimp only [Lexer.isAtEnd, isBoundary]
    rw [hpos, Bool.false_or]
    cases hbyte : l.advance.bytes[k]? with
    | none => simp [List.getElem?_eq_none_iff.mp hbyte]
    | some byte =>
      obtain ⟨hlt, -⟩ := List.getElem?_eq_some_iff.mp hbyte
      simp [hlt]
  -- The first byte of the character has been read, and the loop passes over the others.
  obtain ⟨first, more, hbytes, hmore⟩ : ∃ first more, String.utf8EncodeChar c = first :: more ∧
      ∀ byte ∈ more, continues byte = true := by
    rcases utf8EncodeChar_cases c with ⟨-, hbytes⟩ | ⟨-, first, more, hbytes, -, hmore⟩
    · exact ⟨_, [], hbytes, fun byte hbyte => absurd hbyte List.not_mem_nil⟩
    · refine ⟨first, more, hbytes, fun byte hbyte => ?_⟩
      simp [continues, UInt8.le_iff_toNat_le, UInt8.lt_iff_toNat_lt, hmore byte hbyte]
  have hsize := h.length_sub
  have hdrop : l.advance.bytes.drop l.advance.current = more ++ encode rest := by
    show l.bytes.drop (l.current + 1) = _
    rw [← List.drop_drop, h.drop, encode_cons, hbytes]
    rfl
  have hend : { l.advance with current := l.advance.current + more.length } = l.past [c] := by
    have hplace : l.current + 1 + more.length = l.current + (encode [c]).length := by
      rw [encode_cons, hbytes, encode_nil, List.append_nil, List.length_cons]
      omega
    exact congrArg (fun place => { l with current := place }) hplace
  rw [Lexer.readUnexpected?, advanceWhile?_eq (p := continues) ?_ hgoes, hdrop,
    List.takeWhile_append_of_pos hmore, takeWhile_continues, List.append_nil, hend]
  · exact h.past_cons.error _
  · show l.bytes.length - (l.current + 1) < fuel
    omega

theorem skipString?_eq (hfuel : l.bytes.length - l.current < fuel) : l.skipString? fuel =
    let body := (l.bytes.drop l.current).takeWhile ((· != '"') ∘ Char.ofUInt8)
    some { l with
      current := l.current + body.length
      line := l.line + UInt32.ofNat (body.countP ((· == '\n') ∘ Char.ofUInt8)) } := by
  induction fuel generalizing l with
  | zero => exact absurd hfuel (Nat.not_lt_zero _)
  | succ fuel ih =>
    rw [skipString?, current?]
    cases hbyte : l.bytes[l.current]? with
    | none =>
      rw [List.drop_eq_nil_of_le (List.getElem?_eq_none_iff.mp hbyte)]
      simp
    | some byte =>
      obtain ⟨hlt, rfl⟩ := List.getElem?_eq_some_iff.mp hbyte
      rw [List.drop_eq_getElem_cons hlt, Option.map_some]
      by_cases hquote : Char.ofUInt8 l.bytes[l.current] = '"'
      · rw [List.takeWhile_cons_of_neg (by simp [hquote])]
        simp [hquote]
      · rw [List.takeWhile_cons_of_pos (by simp [hquote])]
        dsimp only
        rw [if_neg hquote, ih (by show l.bytes.length - (l.current + 1) < fuel; omega)]
        have hplace (n : Nat) : l.current + (n + 1) = l.current + 1 + n := by omega
        have hline (n : Nat) : l.line + UInt32.ofNat (n + if Char.ofUInt8 l.bytes[l.current] = '\n' then
              1 else 0) =
            (if Char.ofUInt8 l.bytes[l.current] = '\n' then l.line + 1 else l.line) + UInt32.ofNat n := by
          split
          · rw [UInt32.ofNat_add, UInt32.add_assoc, UInt32.add_comm 1]
            rfl
          · rfl
        simp only [List.length_cons, List.countP_cons, Function.comp_apply, beq_iff_eq]
        rw [hplace, hline]
        rfl

theorem countP_encode {p : Char → Bool} (hp : ∀ c : Char, 128 ≤ c.toNat → p c = false) (text : List Char) :
    (encode text).countP (p ∘ Char.ofUInt8) = text.countP p := by
  induction text with
  | nil => rfl
  | cons c text ih =>
    rw [encode_cons, List.countP_append, ih, List.countP_cons, Nat.add_comm]
    rcases utf8EncodeChar_cases c with ⟨hc, hbytes⟩ | ⟨hc, first, more, hbytes, -, -⟩
    · rw [hbytes, List.countP_singleton, Function.comp_apply, ofUInt8_toUInt8 hc]
    · have hnone : ∀ byte ∈ String.utf8EncodeChar c, ¬(p ∘ Char.ofUInt8) byte = true := fun byte hbyte => by
        rw [Function.comp_apply, (blind_of_false hp).byte hbyte, hp c hc]
        exact Bool.false_ne_true
      rw [List.countP_eq_zero.mpr hnone, hp c hc]
      rfl

theorem At.readString? (h : l.At (before ++ piece) rest) (hstart : l.start = (encode before).length)
    (hfuel : (encode rest).length < fuel) :
    let line := l.line + UInt32.ofNat ((rest.takeWhile (· != '"')).count '\n')
    Finds l.bytes (match rest.dropWhile (· != '"') with
      | [] => (⟨.error, "Unterminated string.", line⟩, [])
      | _ :: after => (⟨.string, String.ofList (piece ++ (rest.takeWhile (· != '"') ++ ['"'])), line⟩, after))
      (l.readString? fuel) := by
  intro line
  have hbreak : ∀ c : Char, 128 ≤ c.toNat → (c == '\n') = false := fun c hc =>
    beq_eq_false_iff_ne.mpr (ne_of_wide hc (by decide))
  have hskip : l.skipString? fuel = some { l.past (rest.takeWhile (· != '"')) with line } := by
    rw [skipString?_eq (by rwa [h.length_sub]), h.drop, (blind_ne (by decide)).takeWhile]
    dsimp only
    rw [countP_encode hbreak]
    rfl
  have hpast := h.past_takeWhile (· != '"')
  rw [List.append_assoc] at hpast
  have hread : At { l.past (rest.takeWhile (· != '"')) with line }
      (before ++ (piece ++ rest.takeWhile (· != '"')))
      (rest.dropWhile (· != '"')) := ⟨hpast.bytes, hpast.current⟩
  have hend := hread.isAtEnd
  rw [Lexer.readString?, hskip]
  dsimp only [bind, Option.bind]
  rw [hend]
  have hhead := List.head?_dropWhile_not (· != '"') rest
  generalize rest.dropWhile (· != '"') = left at hread hhead ⊢
  cases left with
  | nil => exact hread.error _
  | cons quote after =>
    obtain rfl : quote = '"' := by simpa using hhead
    have hclosed := hread.advance (by decide)
    rw [List.append_assoc, List.append_assoc] at hclosed
    exact hclosed.make? hstart _

/-! ### Gaps -/

theorem skipGap_comment (line : UInt32) (text : List Char) :
    skipGap true line text = skipGap false line (text.dropWhile (· != '\n')) := by
  induction text with
  | nil => rfl
  | cons c text ih =>
    by_cases hc : c = '\n'
    · rw [hc]
      rfl
    · rw [skipGap, if_neg hc, if_pos rfl, ih, List.dropWhile_cons_of_pos (by simpa using hc)]

/-- The scanner passes over a gap up to what follows it. -/
theorem At.skipGap? (h : l.At before after) (hfuel : (encode after).length < fuel) : ∃ l' before',
    l.skipGap? fuel = some l' ∧ l'.At before' (skipGap false l.line after).2 ∧
      l'.line = (skipGap false l.line after).1 ∧ l'.bytes = l.bytes := by
  induction fuel generalizing l before after with
  | zero => exact absurd hfuel (Nat.not_lt_zero _)
  | succ fuel ih =>
    cases after with
    | nil =>
      rw [Lexer.skipGap?, h.current?_nil]
      exact ⟨l, before, rfl, h, rfl, rfl⟩
    | cons c rest =>
      rcases h.current?_cons with ⟨hc, hcurrent⟩ | ⟨hc, d, hd, hcurrent⟩ <;> rw [Lexer.skipGap?, hcurrent] <;>
        dsimp only
      · have hnext := h.advance hc
        have hpeek : l.peek? = some '/' ↔ rest.head? = some '/' := hnext.current?_eq_some_iff (by decide)
        have hsize : (encode rest).length < fuel := by
          have hpos := c.utf8Size_pos
          simp only [encode_cons, List.length_append, String.length_utf8EncodeChar] at hfuel
          omega
        by_cases hblank : c = ' ' ∨ c = '\r' ∨ c = '\t'
        · have hbreak : c ≠ '\n' := by
            rintro rfl
            exact absurd hblank (by decide)
          rw [if_pos hblank, skipGap, if_neg hbreak, if_neg Bool.false_ne_true, if_pos hblank]
          exact ih hnext hsize
        · rw [if_neg hblank]
          by_cases hbreak : c = '\n'
          · rw [if_pos hbreak, skipGap, if_pos hbreak]
            exact ih (l := { l.advance with line := l.line + 1 }) ⟨hnext.bytes, hnext.current⟩ hsize
          · rw [if_neg hbreak, skipGap, if_neg hbreak, if_neg Bool.false_ne_true, if_neg hblank]
            by_cases hcomment : c = '/' ∧ rest.head? = some '/'
            · have hdrop : (c :: rest).dropWhile (· != '\n') = rest.dropWhile (· != '\n') :=
                List.dropWhile_cons_of_pos (by simpa using hbreak)
              have hpast := h.past_takeWhile (· != '\n')
              rw [hdrop] at hpast
              rw [if_pos ⟨hcomment.1, hpeek.mpr hcomment.2⟩, if_pos hcomment,
                h.advanceWhile? (blind_ne (by decide)) hfuel, skipGap_comment]
              exact ih hpast (Nat.lt_of_le_of_lt (length_encode_dropWhile_le _ _) hsize)
            · rw [if_neg fun hboth => hcomment ⟨hboth.1, hpeek.mp hboth.2⟩, if_neg hcomment]
              exact ⟨l, before, rfl, h, rfl, rfl⟩
      · -- A byte from 128 up is none of those that a gap begins with, and neither is its character.
        have hnone {b : Char} (hb : 128 ≤ b.toNat) : ¬(b = ' ' ∨ b = '\r' ∨ b = '\t') := by
          simp [ne_of_wide hb]
        have hslash {b : Char} (hb : 128 ≤ b.toNat) {next : Prop} : ¬(b = '/' ∧ next) :=
          fun hboth => ne_of_wide hb (by decide) hboth.1
        rw [if_neg (hnone hd), if_neg (ne_of_wide hd (by decide)), if_neg (hslash hd), skipGap,
          if_neg (ne_of_wide hc (by decide)), if_neg Bool.false_ne_true, if_neg (hnone hc), if_neg (hslash hc)]
        exact ⟨l, before, rfl, h, rfl, rfl⟩

/-! ### Texts -/

/-- No token begins with the character. -/
structure Foreign (c : Char) : Prop where
  word : startsWord c = false
  digit : c.isDigit = false
  sign : c ∉ '"' :: (marks ++ comparisons)

theorem foreign_of_wide (h : 128 ≤ c.toNat) : Foreign c where
  word := startsWord_wide h
  digit := isDigit_wide h
  sign := by simp [marks, comparisons, ne_of_wide h]

theorem Foreign.readFrom? (h : Foreign c) : l.readFrom? fuel c = l.readUnexpected? fuel := by
  unfold Lexer.readFrom?
  rw [h.word, h.digit, if_neg Bool.false_ne_true, if_neg Bool.false_ne_true]
  split <;> first | rfl | exact absurd (by decide) h.sign

theorem Foreign.scanFrom (h : Foreign c) (line : UInt32) (rest : List Char) :
    scanFrom line c rest = (⟨.error, "Unexpected character.", line⟩, rest) := by
  unfold Token.scanFrom
  extract_lets single withEqual
  rw [h.word, h.digit, if_neg Bool.false_ne_true, if_neg Bool.false_ne_true]
  split <;> first | rfl | exact absurd (by decide) h.sign

theorem At.readFrom? (h : l.At before (c :: rest)) (hstart : l.start = (encode before).length)
    (hc : c.toNat < 128) (hfuel : (encode (c :: rest)).length < fuel) :
    Finds l.bytes (scanFrom l.line c rest) (l.advance.readFrom? fuel c) := by
  by_cases hforeign : Foreign c
  · rw [hforeign.readFrom?, hforeign.scanFrom]
    exact h.readUnexpected? hfuel
  have hread := h.advance hc
  have hsize : (encode rest).length < fuel := by
    rw [encode_cons, List.length_append] at hfuel
    omega
  unfold scanFrom Lexer.readFrom?
  extract_lets single withEqual
  have hsingle (kind : Kind) : Finds l.bytes (single kind) (l.advance.make? kind) := hread.make? hstart kind
  have hwithEqual (short long : Kind) :
      Finds l.bytes (withEqual short long) (l.advance.readOperator? short long) := by
    unfold withEqual
    revert hread
    split <;> intro hread
    · exact hread.readOperator?_long hstart short long
    · rename_i hne
      refine hread.readOperator?_short hstart (fun hnext => ?_) short long
      obtain ⟨after, heq⟩ := List.head?_eq_some_iff.mp hnext
      exact hne after heq
  by_cases hword : startsWord c = true
  · rw [if_pos hword, if_pos hword, List.span_eq_takeWhile_dropWhile]
    exact hread.readWord? hstart hsize
  · by_cases hdigit : c.isDigit = true
    · rw [if_neg hword, if_pos hdigit, if_neg hword, if_pos hdigit, List.span_eq_takeWhile_dropWhile]
      exact hread.readNumber? hstart hsize
    · rw [if_neg hword, if_neg hdigit, if_neg hword, if_neg hdigit]
      simp only [List.span_eq_takeWhile_dropWhile]
      have hstring := hread.readString? hstart hsize
      split
      case h_15 => exact hstring
      case h_16 =>
        refine absurd ⟨Bool.eq_false_iff.mpr hword, Bool.eq_false_iff.mpr hdigit, ?_⟩ hforeign
        simp only [marks, comparisons, List.cons_append, List.nil_append, List.mem_cons, List.not_mem_nil,
          or_false, not_or]
        refine ⟨?_, ?_, ?_, ?_, ?_, ?_, ?_, ?_, ?_, ?_, ?_, ?_, ?_, ?_, ?_⟩ <;> assumption
      all_goals first
        | exact hsingle _
        | exact hwithEqual _ _

/-- The scanner finds the next token of the text. -/
theorem At.next? (h : l.At before after) (hfuel : l.bytes.length < fuel) :
    Finds l.bytes (next l.line after) (l.next? fuel) := by
  have hsize {l : Lexer} {before after : List Char} (h : l.At before after) :
      (encode after).length ≤ l.bytes.length := by
    rw [← h.length_sub]
    exact Nat.sub_le _ _
  obtain ⟨l', before', hskip, hread, hline, hbytes⟩ := h.skipGap? (Nat.lt_of_le_of_lt (hsize h) hfuel)
  rw [← hbytes] at hfuel ⊢
  unfold Token.next Lexer.next?
  rw [hskip]
  dsimp only [bind, Option.bind]
  generalize Token.skipGap false l.line after = gap at hread hline ⊢
  obtain ⟨line, text⟩ := gap
  dsimp only at hread hline
  subst hline
  have hbegins : At { l' with start := l'.current } before' text := ⟨hread.bytes, hread.current⟩
  cases text with
  | nil =>
    rw [hbegins.current?_nil]
    have hend : At { l' with start := l'.current, current := l'.bytes.length } (before' ++ []) [] := by
      refine ⟨by rw [List.append_nil]; exact hread.bytes, ?_⟩
      show l'.bytes.length = _
      rw [hread.bytes, encode_nil, List.append_nil, List.append_nil]
    exact hend.make? hread.current .endOfInput
  | cons c rest =>
    have hrest := Nat.lt_of_le_of_lt (hsize hbegins) hfuel
    rcases hbegins.current?_cons with ⟨hc, hcurrent⟩ | ⟨hc, d, hd, hcurrent⟩ <;> rw [hcurrent] <;> dsimp only
    · exact hbegins.readFrom? hread.current hc hrest
    · rw [(foreign_of_wide hd).readFrom?, (foreign_of_wide hc).scanFrom]
      exact hbegins.readUnexpected? hrest

/-- The scanner finds the tokens of the text that are left, and comes to the end. -/
theorem At.tokensUpTo? (h : l.At before after) (hfuel : l.bytes.length < fuel) {count count' : Nat}
    (hcount : after.length < count) (hcount' : after.length < count') (found : Array Token) :
    l.tokensUpTo? fuel count found = some (scanUpTo count' l.line after found) := by
  induction count generalizing l before after count' found with
  | zero => exact absurd hcount (Nat.not_lt_zero _)
  | succ count ih =>
    obtain ⟨count', rfl⟩ := Nat.exists_eq_add_one_of_ne_zero (Nat.ne_of_gt (Nat.zero_lt_of_lt hcount'))
    obtain ⟨l', before', hnext, hread, hline, hbytes⟩ := h.next? hfuel
    rw [Lexer.tokensUpTo?, hnext, scanUpTo]
    dsimp only [bind, Option.bind]
    rcases next_spec l.line after with hend | ⟨hkind, hlength⟩
    · rw [if_pos hend, if_pos hend]
      rfl
    · rw [if_neg hkind, if_neg hkind, ← hline]
      exact ih hread (by rwa [hbytes]) (by omega) (by omega) _

theorem toList_toUTF8 (source : String) : source.toUTF8.data.toList = encode source.toList := by
  have hbytes : source.toUTF8 = (encode source.toList).toByteArray := by
    nth_rewrite 1 [← String.ofList_toList (s := source)]
    rfl
  rw [hbytes, List.toList_data_toByteArray]

theorem length_le_encode (text : List Char) : text.length ≤ (encode text).length := by
  induction text with
  | nil => exact Nat.le_refl _
  | cons c text ih =>
    have hpos := c.utf8Size_pos
    rw [encode_cons, List.length_append, String.length_utf8EncodeChar, List.length_cons]
    omega

/-- To scan the bytes of a text never fails, and gives the tokens of the text. -/
theorem tokens?_eq (source : String) : tokens? source = some (scan source) := by
  have hread : At { bytes := source.toUTF8.data.toList } [] source.toList := ⟨toList_toUTF8 source, rfl⟩
  have hcount : source.toList.length < source.toUTF8.data.toList.length + 1 := by
    rw [toList_toUTF8]
    exact Nat.lt_succ_of_le (length_le_encode _)
  have hcount' : source.toList.length < source.length + 1 := by
    rw [String.length_toList]
    exact Nat.lt_succ_self _
  unfold tokens? scan
  dsimp only
  rw [hread.tokensUpTo? (Nat.lt_succ_self _) hcount hcount']
  rfl

end Lexer

end Lox.Token
