import Imp32.Span
import Imp32.Text.Lines
import Imp32.Text.Utf8

/-!
# Documents

A document is a named text. Spans count its bytes; people count lines and characters. `position`
goes from the one to the other: lines are counted by line feeds and columns by characters, both
from one. `lines`, which is what is shown, cuts at the other line breaks too.
-/

namespace Imp32

/-- A text with the name it is shown under. -/
structure Document where
  text : String
  name : String
  deriving DecidableEq, Repr

/-- A line and a column, both counted from one. -/
structure Position where
  line : Nat
  column : Nat
  deriving DecidableEq, Repr

/-- Two places of a document, with lines and characters counted from zero. -/
structure Region where
  startLine : Nat
  startCharacter : Nat
  stopLine : Nat
  stopCharacter : Nat
  deriving DecidableEq, Repr

namespace Document

def defaultName : String := "<stdin>"

def bytes (d : Document) : List UInt8 :=
  Text.utf8 d.text.toList

def size (d : Document) : Nat :=
  Text.utf8Length d.text.toList

/-- The empty span at the end. -/
def endSpan (d : Document) : Span :=
  ⟨d.size, d.size⟩

def lines (d : Document) : List String :=
  (Text.linesOf d.text.toList).map String.ofList

/-- A line by its number, counted from one; there is nothing on a line that is not there. -/
def lineAt (d : Document) (n : Int) : String :=
  if 1 ≤ n then (d.lines[(n - 1).toNat]?).getD "" else ""

def lineFeed : UInt8 := 10

/-- The bytes behind the last line feed. -/
def lastLine (bytes : List UInt8) : List UInt8 :=
  (bytes.reverse.takeWhile (· ≠ lineFeed)).reverse

/-- The place where these bytes end. -/
def positionAfter (bytes : List UInt8) : Position :=
  ⟨bytes.count lineFeed + 1, (Text.decodeLossy (lastLine bytes)).length + 1⟩

/-- The place of a byte offset. An offset outside the text counts as its nearer end. -/
def position (d : Document) (offset : Int) : Position :=
  positionAfter (d.bytes.take offset.toNat)

/-- The number of bytes in front of an offset that counts from the end if it is negative. -/
def fromEnd (size : Nat) (offset : Int) : Nat :=
  if offset < 0 then (offset + size).toNat else offset.toNat

def textAt (d : Document) (span : Span) : String :=
  let start := fromEnd d.size span.start
  let stop := fromEnd d.size span.stop
  String.ofList (Text.decodeLossy ((d.bytes.take stop).drop start))

def region (d : Document) (span : Span) : Region :=
  let start := d.position span.start
  let stop := d.position span.stop
  ⟨start.line - 1, start.column - 1, stop.line - 1, stop.column - 1⟩

end Document

end Imp32
