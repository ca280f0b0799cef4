import Lox.Token

/-! # Scanning

A source text is cut into its tokens. Between two tokens stand blanks, line breaks and comments, and each
token is the longest one that the text has at that place. Scanning never fails: a character that starts no
token, or a string that is never closed, becomes a token of kind `error`. -/

namespace Lox

namespace Token

/-- Whether `c` can start an identifier or keyword: an ASCII letter or an underscore. -/
def startsWord (c : Char) : Bool := c.isAlpha || c == '_'

/-- Whether `c` can continue an identifier or keyword. -/
def continuesWord (c : Char) : Bool := c.isAlphanum || c == '_'

/-- Passes over the gap before the next token, and gives the line and the text after it. A comment runs from
    two slashes up to the end of its line. -/
def skipGap (inComment : Bool) (line : UInt32) : List Char → UInt32 × List Char
  | [] => (line, [])
  | c :: rest =>
    if c = '\n' then skipGap false (line + 1) rest
    else if inComment then skipGap true line rest
    else if c = ' ' ∨ c = '\r' ∨ c = '\t' then skipGap false line rest
    else if c = '/' ∧ rest.head? = some '/' then skipGap true line rest
    else (line, c :: rest)

/-- The fraction at the head of the text: a point with at least one digit after it. -/
def splitFraction : List Char → List Char × List Char
  | '.' :: c :: rest =>
    if c.isDigit then
      let (digits, rest) := (c :: rest).span Char.isDigit
      ('.' :: digits, rest)
    else ([], '.' :: c :: rest)
  | rest => ([], rest)

/-- The token that starts with `first`, with `rest` after it, and the text that follows the token. -/
def scanFrom (line : UInt32) (first : Char) (rest : List Char) : Token × List Char :=
  let single (kind : Kind) : Token × List Char := (⟨kind, String.singleton first, line⟩, rest)
  let withEqual (short long : Kind) : Token × List Char :=
    match rest with
    | '=' :: rest => (⟨long, String.ofList [first, '='], line⟩, rest)
    | _ => single short
  if startsWord first then
    let (word, rest) := rest.span continuesWord
    let lexeme := String.ofList (first :: word)
    (⟨Kind.ofWord lexeme, lexeme, line⟩, rest)
  else if first.isDigit then
    let (digits, rest) := rest.span Char.isDigit
    let (fraction, rest) := splitFraction rest
    (⟨.number, String.ofList (first :: (digits ++ fraction)), line⟩, rest)
  else match first with
    | '(' => single .leftParen
    | ')' => single .rightParen
    | '{' => single .leftBrace
    | '}' => single .rightBrace
    | ',' => single .comma
    | ';' => single .semicolon
    | '-' => single .minus
    | '+' => single .plus
    | '/' => single .slash
    | '*' => single .star
    | '!' => withEqual .bang .bangEqual
    | '=' => withEqual .equal .equalEqual
    | '<' => withEqual .less .lessEqual
    | '>' => withEqual .greater .greaterEqual
    | '"' =>
      let (body, rest) := rest.span (· != '"')
      let line := line + UInt32.ofNat (body.count '\n')
      match rest with
      | [] => (⟨.error, "Unterminated string.", line⟩, [])
      | _ :: rest => (⟨.string, String.ofList ('"' :: (body ++ ['"'])), line⟩, rest)
    | _ => (⟨.error, "Unexpected character.", line⟩, rest)

/-- The next token of a text whose first line is `line`, with the text after it. At the end of the text, the
    next token is the end of the input, as often as one asks. -/
def next (line : UInt32) (source : List Char) : Token × List Char :=
  match skipGap false line source with
  | (line, []) => (⟨.endOfInput, "", line⟩, [])
  | (line, first :: rest) => scanFrom line first rest

/-- The tokens of `source` after those in `found`, at most `count` more before the end of the input. -/
def scanUpTo (count : Nat) (line : UInt32) (source : List Char) (found : Array Token) : Array Token :=
  match count with
  | 0 => found
  | count + 1 =>
    let (token, rest) := next line source
    if token.kind = .endOfInput then found.push token
    else scanUpTo count token.line rest (found.push token)

/-- The tokens of a source text. The last one, and no other, is the end of the input: a token takes at least
    one character, so the bound on their number is never met before it. -/
def scan (source : String) : List Token :=
  (scanUpTo (source.length + 1) 1 source.toList #[]).toList

end Token

end Lox
