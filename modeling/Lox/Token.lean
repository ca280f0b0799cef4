/-! # Tokens

The words of a Lox source text: their kinds, the text of each kind, and the words at which a statement can
begin. -/

namespace Lox

/-- The category of a token. -/
inductive Token.Kind where
  | leftParen
  | rightParen
  | leftBrace
  | rightBrace
  | comma
  | semicolon
  | minus
  | plus
  | slash
  | star
  | bang
  | bangEqual
  | equal
  | equalEqual
  | greater
  | greaterEqual
  | less
  | lessEqual
  | identifier
  | string
  | number
  | andWord
  | elseWord
  | falseWord
  | forWord
  | funWord
  | ifWord
  | nilWord
  | orWord
  | printWord
  | returnWord
  | trueWord
  | varWord
  | whileWord
  | error
  | endOfInput
deriving DecidableEq, Repr, Inhabited

/-- A word of the source with the line on which it ends. The lexeme is the source text of the word; for a
    token of kind `error` it is the complaint instead, and for the end of the input it is empty. -/
structure Token where
  kind : Token.Kind
  lexeme : String
  line : UInt32
deriving DecidableEq, Repr, Inhabited

namespace Token

namespace Kind

/-- Whether a declaration or statement can begin with a word of this kind. Error recovery resumes there. -/
def startsStatement : Kind → Bool
  | funWord | varWord | forWord | ifWord | whileWord | printWord | returnWord => true
  | _ => false

/-- The name of the kind in token listings. -/
def name : Kind → String
  | leftParen => "LeftParen"
  | rightParen => "RightParen"
  | leftBrace => "LeftBrace"
  | rightBrace => "RightBrace"
  | comma => "Comma"
  | semicolon => "Semicolon"
  | minus => "Minus"
  | plus => "Plus"
  | slash => "Slash"
  | star => "Star"
  | bang => "Bang"
  | bangEqual => "BangEqual"
  | equal => "Equal"
  | equalEqual => "EqualEqual"
  | greater => "Greater"
  | greaterEqual => "GreaterEqual"
  | less => "Less"
  | lessEqual => "LessEqual"
  | identifier => "Identifier"
  | string => "String"
  | number => "Number"
  | andWord => "And"
  | elseWord => "Else"
  | falseWord => "False"
  | forWord => "For"
  | funWord => "Fun"
  | ifWord => "If"
  | nilWord => "Nil"
  | orWord => "Or"
  | printWord => "Print"
  | returnWord => "Return"
  | trueWord => "True"
  | varWord => "Var"
  | whileWord => "While"
  | error => "Error"
  | endOfInput => "Eof"

/-- How the kind is written: its fixed spelling, or a noun for the kinds that have many. -/
def text : Kind → String
  | leftParen => "("
  | rightParen => ")"
  | leftBrace => "\x7b"
  | rightBrace => "\x7d"
  | comma => ","
  | semicolon => ";"
  | minus => "-"
  | plus => "+"
  | slash => "/"
  | star => "*"
  | bang => "!"
  | bangEqual => "!="
  | equal => "="
  | equalEqual => "=="
  | greater => ">"
  | greaterEqual => ">="
  | less => "<"
  | lessEqual => "<="
  | identifier => "identifier"
  | string => "string"
  | number => "number"
  | andWord => "and"
  | elseWord => "else"
  | falseWord => "false"
  | forWord => "for"
  | funWord => "fun"
  | ifWord => "if"
  | nilWord => "nil"
  | orWord => "or"
  | printWord => "print"
  | returnWord => "return"
  | trueWord => "true"
  | varWord => "var"
  | whileWord => "while"
  | error => "error"
  | endOfInput => "EOF"

/-- The keywords of the language. -/
def keywords : List Kind :=
  [andWord, elseWord, falseWord, forWord, funWord, ifWord, nilWord, orWord, printWord, returnWord, trueWord,
    varWord, whileWord]

/-- The kind of a word made of letters, digits and underscores: a keyword only if it is one as a whole. -/
def ofWord (word : String) : Kind :=
  (keywords.find? fun kind => kind.text == word).getD identifier

end Kind

/-- Stands for the token at hand before the first one is read. -/
def unread : Token := ⟨.endOfInput, "", 1⟩

/-- How a token reads in a message. -/
def text (token : Token) : String :=
  match token.kind with
  | .endOfInput => "EOF"
  | .error => "error: " ++ token.lexeme
  | _ => token.lexeme

end Token

end Lox
