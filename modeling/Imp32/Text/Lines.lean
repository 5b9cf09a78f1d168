/-!
# Lines of a text

A text is cut into lines at the line feed, the carriage return, the pair of both, the vertical
tab, the form feed, the file, group and record separators, the next-line character and the line
and paragraph separators. A break ends its line and belongs to none; a text that ends with a break
has no further empty line.

Reading a text from outside turns the two breaks that hold a carriage return into a line feed.
-/

namespace Imp32.Text

def isLineBreak (c : Char) : Bool :=
  c = '\n' || c = '\r' || c = '\x0b' || c = '\x0c' || c = '\x1c' || c = '\x1d' || c = '\x1e' ||
    c = '\u0085' || c = '\u2028' || c = '\u2029'

/-- Put a character in front of the first line. -/
def consLine (c : Char) : List (List Char) → List (List Char)
  | [] => [[c]]
  | line :: lines => (c :: line) :: lines

/-- The lines of a text, without their breaks. -/
def linesOf : List Char → List (List Char)
  | [] => []
  | '\r' :: '\n' :: rest => [] :: linesOf rest
  | c :: rest => if isLineBreak c then [] :: linesOf rest else consLine c (linesOf rest)

/-- The text with every carriage return, and every pair with a line feed, as one line feed. -/
def withLineFeeds : List Char → List Char
  | [] => []
  | '\r' :: '\n' :: rest => '\n' :: withLineFeeds rest
  | c :: rest => (if c = '\r' then '\n' else c) :: withLineFeeds rest

end Imp32.Text
