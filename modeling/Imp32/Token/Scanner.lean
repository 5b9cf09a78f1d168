import Imp32.Fault
import Imp32.Text.Blank
import Imp32.Text.Decimal
import Imp32.Text.Utf8
import Imp32.Word

/-!
# Reading tokens from a text

A text is read from left to right. Blanks are skipped; from any other character the longest piece
that could be one token is taken, `pieceTail`, and `spelled` says what it spells. A piece that
spells nothing is an error, and reading can go on behind it.

The scanner counts the characters and the bytes that it has passed, and the span of a token is the
range of bytes of its piece.
-/

namespace Imp32

/-- Where reading stands. -/
structure Scanner where
  /-- The characters that have not been read. -/
  rest : List Char
  /-- The number of characters that have been read. -/
  index : Nat
  /-- The number of bytes that have been read. -/
  offset : Nat
  deriving DecidableEq, Repr

namespace Scanner

/-- The greatest number of digits that a literal without overflow may have after its leading
zeros. -/
def maxSignificant : Nat := 10

/-- The greatest number of digits that the number reader takes. -/
def maxDigits : Nat := 4300

/-- The part of the longest piece behind its first character: digits go on with digits, words with
letters and digits, and a comparison or assignment sign with one equals sign. -/
def pieceTail (first : Char) (rest : List Char) : List Char :=
  if first.isDigit then rest.takeWhile Char.isDigit
  else if first.isAlpha then rest.takeWhile Char.isAlphanum
  else if first = '=' || first = '!' || first = '<' || first = '>' then
    (rest.take 1).takeWhile (· = '=')
  else []

/-- The token of a run of digits. Leading zeros do not count toward overflow. -/
def numeral (digits : List Char) (span : Span) : Except LexError Lexeme :=
  let overflow := .error (.literalOverflow (String.ofList digits) span)
  if maxSignificant < (digits.dropWhile (· = '0')).length then overflow
  else if maxDigits < digits.length then .error (.digitLimit digits.length)
  else if Word.maxValue < Text.decimalValue digits then overflow
  else .ok (.num (Text.decimalValue digits))

/-- The token of a word: a keyword or a name. -/
def word (letters : List Char) : Lexeme :=
  (Lexeme.ofSpelling? (String.ofList letters)).getD (.ident (String.ofList letters))

/-- The token of a sign. -/
def sign (chars : List Char) (span : Span) : Except LexError Lexeme :=
  match Lexeme.ofSpelling? (String.ofList chars) with
  | some lexeme => .ok lexeme
  | none => .error (.invalidToken (String.ofList chars) span)

/-- What the piece with this first character and this tail spells. -/
def spelled (first : Char) (tail : List Char) (span : Span) : Except LexError Lexeme :=
  if first.isDigit then numeral (first :: tail) span
  else if first.isAlpha then .ok (word (first :: tail))
  else sign (first :: tail) span

def start (cs : List Char) : Scanner :=
  ⟨cs, 0, 0⟩

def pass (s : Scanner) (chars : List Char) : Scanner :=
  ⟨s.rest.drop chars.length, s.index + chars.length, s.offset + Text.utf8Length chars⟩

def skipBlanks (s : Scanner) : Scanner :=
  s.pass (s.rest.takeWhile Text.isBlank)

/-- Read one token; nothing is read at the end. Either way, and at an error, reading can go on. -/
def next (s : Scanner) : EStateM.Result LexError Scanner (Option Token) :=
  let s := s.skipBlanks
  match s.rest with
  | [] => .ok none s
  | first :: rest =>
    let tail := pieceTail first rest
    let after := s.pass (first :: tail)
    let span : Span := ⟨s.offset, after.offset⟩
    match spelled first tail span with
    | .ok lexeme => .ok (some ⟨lexeme, span⟩) after
    | .error e => .error e after

/-- Read tokens to the end, behind those that have been read, last first. Each token takes a
character at least, so characters serve to count the tokens. -/
def toEnd : (count : List Char) → Scanner → List Token → Except LexError (List Token)
  | count, s, done =>
    match s.next with
    | .error e _ => .error e
    | .ok none _ => .ok done.reverse
    | .ok (some token) s' =>
      match count with
      | [] => .ok (token :: done).reverse
      | _ :: count => toEnd count s' (token :: done)

end Scanner

/-- The tokens of a text. -/
def tokens (source : String) : Except LexError (List Token) :=
  Scanner.toEnd source.toList (Scanner.start source.toList) []

end Imp32
