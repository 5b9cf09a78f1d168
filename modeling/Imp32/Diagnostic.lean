import Imp32.Document
import Imp32.Fault

/-!
# Diagnostics

A diagnostic is a message with a severity and a code, the places it is about and further notes.
`render` shows it over a document: a heading, then each place with its line and a row of carets
under the part that is meant, then the notes. A diagnostic without a place is about the end of the
document.
-/

namespace Imp32

/-- How bad it is. -/
inductive Severity where
  | error | warning | note
  deriving DecidableEq, Repr

/-- A place, with what there is to say about it. -/
structure Mark where
  span : Span
  message : String
  deriving DecidableEq, Repr

/-- A message about a document. -/
structure Diagnostic where
  severity : Severity
  code : String
  message : String
  marks : List Mark
  notes : List String
  deriving DecidableEq, Repr

/-- A fault is an error at its place. -/
def Fault.diagnostic (fault : Fault) : Diagnostic :=
  ⟨.error, fault.code, fault.message, fault.span.toList.map (⟨·, ""⟩), []⟩

def Severity.name : Severity → String
  | error => "error"
  | warning => "warning"
  | note => "note"

namespace Diagnostic

/-- The places that are shown. -/
def places (diagnostic : Diagnostic) (d : Document) : List Mark :=
  if diagnostic.marks.isEmpty then [⟨d.endSpan, ""⟩] else diagnostic.marks

/-! ## Snippets -/

/-- A line with a part of it marked. -/
structure Snippet where
  /-- Where the part starts. -/
  position : Position
  /-- The line. -/
  line : String
  /-- The number of carets. -/
  width : Nat
  deriving DecidableEq, Repr

/-- The line where a span starts, marked up to the span's end or, if the span goes on behind the
line, up to the line's. There is one caret at least. -/
def snippet (d : Document) (span : Span) : Snippet :=
  let start := d.position span.start
  let stop := d.position span.stop
  let line := d.lineAt start.line
  let width :=
    if start.line = stop.line then stop.column - start.column else line.length + 1 - start.column
  ⟨start, line, max 1 width⟩

/-! ## Rendering -/

/-- The codes that switch a terminal's colours. -/
structure Palette where
  error : String
  warning : String
  note : String
  bold : String
  frame : String
  reset : String

/-- Bold red, yellow and cyan by severity, and a bold blue frame. -/
def Palette.terminal : Palette :=
  ⟨"\x1b[1;31m", "\x1b[1;33m", "\x1b[1;36m", "\x1b[1m", "\x1b[1;34m", "\x1b[0m"⟩

def Palette.plain : Palette :=
  ⟨"", "", "", "", "", ""⟩

def Palette.ofColor (color : Bool) : Palette :=
  if color then terminal else plain

def Palette.ofSeverity (palette : Palette) : Severity → String
  | .error => palette.error
  | .warning => palette.warning
  | .note => palette.note

def repeated (c : Char) (n : Nat) : String :=
  String.ofList (List.replicate n c)

/-- A line number, to the right of a gutter four wide. -/
def gutter (line : Nat) : String :=
  let digits := toString line
  repeated ' ' (4 - digits.length) ++ digits

/-- The lines that show a place. -/
def placeLines (palette : Palette) (severity : Severity) (d : Document) (place : Mark) :
    List String :=
  let frame := palette.frame
  let reset := palette.reset
  let mark := palette.ofSeverity severity
  let s := snippet d place.span
  let number := gutter s.position.line
  let padding := repeated ' ' (s.position.column - 1)
  let carets := repeated '^' s.width
  let shown :=
    [s!"  {frame}-->{reset} {d.name}:{s.position.line}:{s.position.column}",
      s!"  {frame}     |{reset}",
      s!"  {frame}{number} |{reset} {s.line}",
      s!"  {frame}     |{reset} {padding}{mark}{carets}{reset}"]
  if place.message.isEmpty then shown
  else shown ++ [s!"  {frame}     |{reset} {padding}{mark}{place.message}{reset}"]

/-- The lines of a diagnostic over its document. -/
def renderLines (palette : Palette) (diagnostic : Diagnostic) (d : Document) : List String :=
  let mark := palette.ofSeverity diagnostic.severity
  let reset := palette.reset
  let heading :=
    s!"{mark}{diagnostic.severity.name}[{diagnostic.code}]{reset}{palette.bold}" ++
      s!": {diagnostic.message}{reset}"
  let places := (diagnostic.places d).flatMap (placeLines palette diagnostic.severity d)
  let notes := diagnostic.notes.map fun note => s!"  {palette.frame}={reset} note: {note}"
  heading :: (places ++ notes)

/-- A diagnostic over its document, with colours or without. -/
def render (color : Bool) (diagnostic : Diagnostic) (d : Document) : String :=
  "\n".intercalate (renderLines (Palette.ofColor color) diagnostic d)

end Diagnostic

end Imp32
