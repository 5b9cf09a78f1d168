import Imp32.Assembly.Toolchain
import Imp32.Fault
import Imp32.Settings
import Imp32.Text.Encoding

/-!
# Sessions

While a command works it prints, writes files and may run one outside command. It ends with an
exit code, or it breaks off for a cause that it has no words for, which leaves what was printed
and written before. A session is what can be seen of this from outside.

A file is emptied before its new text is turned into bytes. Where that fails nothing is left of the
text that was there (`Action.write`). What is said beside the output never fails, since a character
without bytes is spelled out there.
-/

namespace Imp32.Command

/-- What a command can use besides its workspace. -/
structure Surroundings where
  /-- The standard input, if it is a text. -/
  input : Contents
  tools : Assembly.Toolchain
  /-- The number of turns that a loop of a program may take. -/
  turns : Nat
  /-- How the text of a file is turned into bytes. -/
  files : Encoding
  /-- How what is printed is turned into bytes. -/
  output : Encoding

/-- Why a command breaks off. -/
inductive Crash where
  | discovery (e : Workspace.DiscoveryError)
  | file (e : FileError)
  /-- An error that is no fault of the program. -/
  | failure (e : Failure)
  /-- A path has no last name to put a suffix behind. -/
  | noFileName
  /-- A setting has a value of a kind that is of no use. -/
  | wrongKind
  /-- There are no bytes for a text. -/
  | encoding
  | tool (e : Assembly.ToolFault)
  deriving DecidableEq, Repr

def Crash.message : Crash → String
  | discovery e => e.message
  | file e => e.message
  | failure _ => "the program cannot be read"
  | noFileName => "the output has no name"
  | wrongKind => s!"{Settings.fileName} has a value of the wrong kind"
  | encoding => "a character cannot be written"
  | tool e => e.message

/-- How a command ends. -/
inductive Ending where
  | exit (code : Nat)
  /-- The command line is wrong. -/
  | misuse
  | crash (cause : Crash)
  /-- A loop of the program took more turns than it was given. -/
  | outOfTurns
  /-- The command goes on as a server for an editor. -/
  | serving
  deriving DecidableEq, Repr

/-- What is seen of a command from outside. -/
structure Session where
  workspace : Workspace
  /-- What was printed. -/
  output : String
  /-- What was said beside it. -/
  messages : String
  /-- The outside command that was run, as it is set, with its arguments. -/
  started : Option (Toml.Value × List String)
  deriving Repr

abbrev Action := EStateM Ending Session

/-- The session of a command that has done nothing. -/
def Session.start (w : Workspace) : Session :=
  ⟨w, "", "", none⟩

namespace Action

def exit {α : Type} (code : Nat) : Action α :=
  throw (.exit code)

def crash {α : Type} (cause : Crash) : Action α :=
  throw (.crash cause)

/-- Go on with a value, or break off. -/
def orCrash {ε α : Type} (cause : ε → Crash) : Except ε α → Action α
  | .ok a => return a
  | .error e => crash (cause e)

/-- Print a text, or break off with nothing of it printed. -/
def print (around : Surroundings) (text : String) : Action Unit :=
  if around.output.takes text then modify fun s => { s with output := s.output ++ text }
  else crash .encoding

def printLine (around : Surroundings) (line : String) : Action Unit :=
  print around (line ++ "\n")

def say (line : String) : Action Unit :=
  modify fun s => { s with messages := s.messages ++ line ++ "\n" }

/-- Write a file. It is emptied first. -/
def write (around : Surroundings) (path : Path) (text : String) : Action Unit := do
  let place ← orCrash .file ((← get).workspace.writable path)
  modify fun s => { s with workspace := s.workspace.put place "" }
  if around.files.takes text then
    modify fun s => { s with workspace := s.workspace.put place text }
  else crash .encoding

end Action

end Imp32.Command
