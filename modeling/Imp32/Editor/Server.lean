import Imp32.Editor

/-!
# Servers

A server is told of the documents that are opened, changed and closed. It keeps an editor, and
publishes the reports of a document each time the document gets a text.
-/

namespace Imp32

/-- What a server is told of a document. Of the texts that come with a change the last counts; if
there is none, the document is empty. -/
inductive Event where
  | opened (uri text : String)
  | changed (uri : String) (texts : List String)
  | closed (uri : String)
  deriving DecidableEq, Repr

/-- The reports of a document as they are sent out. -/
structure Publication where
  uri : String
  reports : List Report
  deriving DecidableEq, Repr

/-- An editor, and all that was published, the latest last. -/
structure Server where
  editor : Editor
  published : List Publication

namespace Event

def uri : Event → String
  | opened uri _ | changed uri _ | closed uri => uri

def text? : Event → Option String
  | opened _ text => some text
  | changed _ texts => some (texts.getLast?.getD "")
  | closed _ => none

end Event

/-- Take an event. A text is analysed and its reports are published, whatever the event that gives
it. -/
def Editor.handle (e : Editor) (event : Event) : Except Failure (Option Publication × Editor) :=
  match event.text? with
  | some text => do
    let (a, e) ← e.update event.uri text defaultLimit
    return (some ⟨event.uri, a.reports⟩, e)
  | none => return (none, e.close event.uri)

namespace Server

/-- A server that was told nothing. -/
def fresh : Server := ⟨[], []⟩

/-- Tell of an event. One that cannot be handled leaves everything as it was. -/
def tell (s : Server) (event : Event) : Server :=
  match s.editor.handle event with
  | .ok (publication, e) => ⟨e, s.published ++ publication.toList⟩
  | .error _ => s

/-- Tell a fresh server of all events in order. -/
def run (events : List Event) : Server :=
  events.foldl tell fresh

/-- The reports that were last published of a document. -/
def shown? (s : Server) (uri : String) : Option (List Report) :=
  ((s.published.filter fun publication => publication.uri = uri).getLast?).map Publication.reports

end Server

end Imp32
