import Imp32.Text.Alphanumeric
import Imp32.Text.Blank
import Imp32.Text.Lines
import Imp32.Token

/-!
# Highlighting

A text is cut into pieces, each of one kind, that together are the text. At each place the first
rule that fits takes as much as it can: blanks, digits, a keyword, an operator, a name, a
punctuation mark, and otherwise one character that is an error. A keyword is taken only as a whole
word, where a word is made of letters and numerals of any script and underscores.
-/

namespace Imp32

/-- The kind of a piece. -/
inductive PieceKind where
  | blank | number | keyword | operator | name | punctuation | error
  deriving DecidableEq, Repr

/-- A part of a text. -/
structure Piece where
  kind : PieceKind
  text : List Char
  deriving DecidableEq, Repr

namespace Highlight

def isWordChar (c : Char) : Bool :=
  Text.isAlphanumeric c || c = '_'

def keywords : List (List Char) :=
  [['i', 'f'], ['w', 'h', 'i', 'l', 'e'], ['f', 'o', 'r']]

/-- Whether the word that starts here is a keyword. The character in front of it is given. -/
def isKeyword (before : Option Char) (first : Char) (rest : List Char) : Bool :=
  !before.any isWordChar && keywords.contains (first :: rest.takeWhile isWordChar)

/-- A sign that an equals sign may follow in one operator. -/
def takesEquals (c : Char) : Bool :=
  c = '=' || c = '!' || c = '<' || c = '>'

/-- An operator of one character. -/
def isOperator (c : Char) : Bool :=
  ['+', '-', '*', '/', '^', '<', '>', '='].contains c

def isPunctuation (c : Char) : Bool :=
  ['(', ')', '{', '}', ';'].contains c

/-- The piece that starts with a character. The character in front of it is given. -/
def firstPiece (before : Option Char) (first : Char) (rest : List Char) : Piece :=
  if Text.isBlank first then ⟨.blank, first :: rest.takeWhile Text.isBlank⟩
  else if first.isDigit then ⟨.number, first :: rest.takeWhile Char.isDigit⟩
  else if isKeyword before first rest then ⟨.keyword, first :: rest.takeWhile isWordChar⟩
  else if takesEquals first && rest.head? = some '=' then ⟨.operator, [first, '=']⟩
  else if isOperator first then ⟨.operator, [first]⟩
  else if first.isAlpha then ⟨.name, first :: rest.takeWhile Char.isAlphanum⟩
  else if isPunctuation first then ⟨.punctuation, [first]⟩
  else ⟨.error, [first]⟩

/-- The pieces of a text behind a character. Each piece takes a character at least, so characters
serve to count the pieces. -/
def piecesFrom : (count : List Char) → (before : Option Char) → (cs : List Char) → List Piece
  | _ :: count, before, first :: rest =>
    let piece := firstPiece before first rest
    piece :: piecesFrom count piece.text.getLast? ((first :: rest).drop piece.text.length)
  | _, _, _ => []

def pieces (cs : List Char) : List Piece :=
  piecesFrom cs none cs

/-- The pieces with the number of characters in front of each. -/
def locate : (index : Nat) → List Piece → List (Nat × Piece)
  | _, [] => []
  | index, piece :: rest => (index, piece) :: locate (index + piece.text.length) rest

/-- A text without the line feeds at its start and its end. -/
def trimLines (cs : List Char) : List Char :=
  ((cs.dropWhile (· = '\n')).reverse.dropWhile (· = '\n')).reverse

/-- A text made ready for showing: without a byte order mark, with line feeds only, none of them
at the start and one at the end. -/
def prepare (cs : List Char) : List Char :=
  let cs := match cs with
    | '\ufeff' :: rest => rest
    | cs => cs
  trimLines (Text.withLineFeeds cs) ++ ['\n']

end Highlight

end Imp32
