import Imp32.Program.Check
import Imp32.Program.Parser
import Imp32.Program.Printer
import Imp32.Text.Alphanumeric

/-!
# Editing

An editor keeps what it knows of each open document: its text, its program if it has one, where
its variables are first assigned, and what to report of it. Opening or changing a document
analyses its text anew; nothing else of the past counts. What is asked about a place is asked about
the word there.
-/

namespace Imp32

/-- A diagnostic at its place. -/
structure Report where
  region : Region
  severity : Severity
  code : String
  message : String
  deriving DecidableEq, Repr

/-- What is known of a document. -/
structure Analysis where
  document : Document
  program : Option Program
  targets : Bindings Span
  reports : List Report

/-- A replacement of a part of a document. -/
structure Edit where
  region : Region
  text : String
  deriving DecidableEq, Repr

/-- What a proposed word is. -/
inductive WordKind where
  | keyword | name
  deriving DecidableEq, Repr

/-- The open documents by their addresses. -/
abbrev Editor := Bindings Analysis

/-! ## Analysis -/

def Report.source : String := "climb"

/-- The first place of a diagnostic, or the end of the document. -/
def Diagnostic.firstSpan (d : Document) (diagnostic : Diagnostic) : Span :=
  match diagnostic.marks with
  | place :: _ => place.span
  | [] => d.endSpan

def Diagnostic.report (d : Document) (diagnostic : Diagnostic) : Report :=
  ⟨d.region (diagnostic.firstSpan d), diagnostic.severity, diagnostic.code,
    s!"[{diagnostic.code}] {diagnostic.message}"⟩

/-- Analyse a document. An error that is a fault is reported; any other ends the analysis. -/
def Document.analyze (d : Document) (limit : Int) : Except Failure Analysis :=
  match Program.parse d.text limit with
  | .error e =>
    match e.fault? with
    | some fault => .ok ⟨d, none, [], [fault.diagnostic.report d]⟩
    | none => .error e
  | .ok p =>
    match p.check with
    | .error e => .error (.target e)
    | .ok f => .ok ⟨d, some p, f.targets, f.diagnostics.map (·.report d)⟩

/-! ## Words -/

def takeWhileEnd (p : Char → Bool) (cs : List Char) : List Char :=
  (cs.reverse.takeWhile p).reverse

/-- The word around a character of a line: the letters and numerals on both sides. -/
def wordAround (line : List Char) (character : Nat) : List Char :=
  takeWhileEnd Text.isAlphanumeric (line.take character) ++
    (line.drop character).takeWhile Text.isAlphanumeric

/-- The word at a place, both counted from zero. Right behind the end of a line counts as its last
character, and elsewhere outside the text there is no word. -/
def wordAt (source : String) (line character : Int) : String :=
  if line < 0 then ""
  else
    match (Text.linesOf source.toList)[line.toNat]? with
    | none => ""
    | some cs =>
      if 0 ≤ character ∧ character < cs.length then
        String.ofList (wordAround cs character.toNat)
      else if 0 < character ∧ character ≤ cs.length then
        String.ofList (wordAround cs (character.toNat - 1))
      else ""

/-! ## Answers -/

/-- The keywords, in order, with what they do. -/
def keywordNotes : List (String × String) :=
  [("for",
      "`for (init; cond; update) \x7b ... \x7d`; without `cond` the body never runs."),
    ("if", "`if (cond) \x7b ... \x7d` runs the block when `cond` is greater than zero."),
    ("while",
      "`while (cond) \x7b ... \x7d` repeats the block while `cond` is greater than zero.")]

/-- What there is to know about a word. -/
def Analysis.hover (a : Analysis) (word : String) : Option String :=
  match keywordNotes.lookup word with
  | some note => some s!"**keyword** {note}"
  | none =>
    (a.targets.get? word).map fun span =>
      let place := a.document.position span.start
      s!"**variable** `{word}`, first assigned at line {place.line}, column {place.column}"

/-- Where a variable is first assigned. -/
def Analysis.definition (a : Analysis) (word : String) : Option Region :=
  (a.targets.get? word).map a.document.region

/-- The edit that lays a document out, unless it has no program or is laid out already. It replaces
everything up to a place behind the last line. -/
def Analysis.layoutEdit (a : Analysis) : Option Edit := do
  let p ← a.program
  let text := p.print
  if text = a.document.text then none
  else
    let lines := a.document.lines
    some ⟨⟨0, 0, lines.length, (lines.getLast?.getD "").length⟩, text⟩

namespace Editor

/-- Take the text of a document that was opened or changed. -/
def update (e : Editor) (uri text : String) (limit : Int) : Except Failure (Analysis × Editor) := do
  let a ← (⟨text, uri⟩ : Document).analyze limit
  return (a, e.set uri a)

/-- Forget a document that was closed. -/
def close (e : Editor) (uri : String) : Editor :=
  e.erase uri

/-- What there is to know about the word at a place. -/
def hover (e : Editor) (uri : String) (line character : Int) : Option String := do
  let a ← e.get? uri
  let word := wordAt a.document.text line character
  if word.isEmpty then none else a.hover word

/-- Where the variable at a place is first assigned. -/
def definition (e : Editor) (uri : String) (line character : Int) : Option Region := do
  let a ← e.get? uri
  a.definition (wordAt a.document.text line character)

/-- The words that may be meant: the keywords, then the document's variables in order. -/
def completions (e : Editor) (uri : String) : List (String × WordKind) :=
  let names := ((e.get? uri).map fun a => a.targets.keys).getD []
  keywordNotes.map (fun pair => (pair.1, .keyword)) ++
    (names.mergeSort fun a b => decide (a ≤ b)).map fun name => (name, .name)

def layoutEdit (e : Editor) (uri : String) : Option Edit := do
  (← e.get? uri).layoutEdit

end Editor

end Imp32
