import Lox.Text.Column
import Lox.Token

/-! # Token listings

A token listing has a line for each token: the source line, the class of the token, and either the name of
its kind or its lexeme. The class and what follows it can be coloured for a terminal. -/

namespace Lox

/-- How a token listing looks. -/
structure Token.Listing where
  /-- Colour each line by the class of its token. -/
  color : Bool := true
  /-- Show lexemes in place of the names of kinds. -/
  lexemes : Bool := false
deriving DecidableEq, Repr

namespace Token

namespace Kind

/-- The class under which a listing shows a kind. -/
def classText : Kind → String
  | endOfInput => "EOF"
  | error => "ERROR"
  | number => "NUMBER"
  | string => "STRING"
  | trueWord | falseWord | nilWord => "LITERAL"
  | identifier => "IDENT"
  | leftParen | rightParen => "PAREN"
  | leftBrace | rightBrace => "BRACE"
  | comma | semicolon => "PUNCT"
  | plus | minus | star | slash | bang | equal => "OP"
  | equalEqual | bangEqual | less | lessEqual | greater | greaterEqual => "CMP"
  | andWord | elseWord | forWord | funWord | ifWord | orWord | printWord | returnWord | varWord | whileWord =>
    "KEYWORD"

/-- The terminal escape that ends a colour. -/
def plainEscape : String := "\x1b[0m"

/-- The terminal escape that starts the colour of a kind. -/
def colorEscape : Kind → String
  | endOfInput | comma | semicolon => "\x1b[2m"
  | error => "\x1b[31m"
  | string => "\x1b[32m"
  | number | trueWord | falseWord | nilWord => "\x1b[36m"
  | identifier => "\x1b[33m"
  | plus | minus | star | slash | bang | equal => "\x1b[35m"
  | equalEqual | bangEqual | less | lessEqual | greater | greaterEqual => "\x1b[35m"
  | _ => plainEscape

end Kind

namespace Listing

/-- The text after the class of a token; the end of the input shows no lexeme. -/
def detail (listing : Listing) (token : Token) : String :=
  if listing.lexemes then
    if token.kind = .endOfInput then "" else " " ++ token.lexeme
  else " " ++ token.kind.name

/-- The line of one token. Line numbers have at least two digits and classes fill eight columns. -/
def row (listing : Listing) (token : Token) : String :=
  let number := Text.zeroPadded 2 token.line.toNat
  let label := Text.alignLeft 8 token.kind.classText
  let start := if listing.color then token.kind.colorEscape else ""
  let finish := if listing.color then Kind.plainEscape else ""
  "[" ++ number ++ "] " ++ start ++ label ++ listing.detail token ++ finish ++ "\n"

/-- The listing of a sequence of tokens. -/
def render (listing : Listing) (tokens : List Token) : String :=
  String.join (tokens.map listing.row)

end Listing

end Token

end Lox
