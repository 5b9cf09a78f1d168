import Imp32.Operator
import Imp32.Span

/-!
# Tokens

A token is a lexeme, the thing that was spelled, at the span where it was spelled. An operator
token is the binary operator that it denotes; the unary minus is the same token as the binary one.
-/

namespace Imp32

/-- What a token spells. A number is an integer so that a token need not come from a text. -/
inductive Lexeme where
  | op (op : BinaryOp)
  | num (value : Int)
  | ident (name : String)
  | leftParen | rightParen
  | leftBrace | rightBrace
  | semicolon
  | ifWord | whileWord | forWord
  deriving DecidableEq, Repr

namespace Lexeme

/-- The spelling of a lexeme that has only one. -/
def spelling? : Lexeme → Option String
  | op o => some o.symbol
  | num _ | ident _ => none
  | leftParen => some "("
  | rightParen => some ")"
  | leftBrace => some "\x7b"
  | rightBrace => some "\x7d"
  | semicolon => some ";"
  | ifWord => some "if"
  | whileWord => some "while"
  | forWord => some "for"

/-- The name of the lexeme's kind in listings. -/
def kindName : Lexeme → String
  | op o => o.name
  | num _ => "NUM"
  | ident _ => "IDENT"
  | leftParen => "LEFT_PAREN"
  | rightParen => "RIGHT_PAREN"
  | leftBrace => "LEFT_BLOCK"
  | rightBrace => "RIGHT_BLOCK"
  | semicolon => "SEMICOLON"
  | ifWord => "IF"
  | whileWord => "WHILE"
  | forWord => "FOR"

/-- The lexeme as messages name it. -/
def describe : Lexeme → String
  | num value => s!"integer {value}"
  | ident name => s!"identifier '{name}'"
  | lexeme =>
    let spelling := lexeme.spelling?.getD ""
    s!"'{spelling}'"

/-- The lexemes that have only one spelling. -/
def fixed : List Lexeme :=
  BinaryOp.all.map op ++
    [leftParen, rightParen, leftBrace, rightBrace, semicolon, ifWord, whileWord, forWord]

/-- The lexeme that has only this spelling. -/
def ofSpelling? (text : String) : Option Lexeme :=
  fixed.find? fun lexeme => lexeme.spelling? = some text

end Lexeme

/-- A lexeme where it was spelled. -/
structure Token where
  lexeme : Lexeme
  span : Span
  deriving DecidableEq, Repr

namespace Token

def describe (token : Token) : String :=
  token.lexeme.describe

def shift (token : Token) (n : Int) : Token :=
  { token with span := token.span.shift n }

end Token

end Imp32
