import Imp32.Command
import Imp32.Command.Session
import Imp32.Diagnostic
import Imp32.Program.Eval
import Imp32.Program.Outline
import Imp32.Program.Printer
import Imp32.Text.Lines

/-!
# Performing commands

Every command takes the settings of the folder it works in, then the text of its program, then the
program itself. A fault is shown beside what is printed and ends the command with code 1. All
checks come before the first file is written.

What a command line asks for is found out elsewhere: a reader of command lines is taken as given
(`outcome`).
-/

namespace Imp32.Command

/-! ## The program -/

/-- The first line of a text, with its line feed. -/
def firstLine (cs : List Char) : List Char :=
  cs.takeWhile (· ≠ '\n') ++ (cs.dropWhile (· ≠ '\n')).take 1

/-- The text of the standard input that a task reads. A run takes a line only. -/
def inputText (task : Task) (input : String) : String :=
  let cs := Text.withLineFeeds input.toList
  String.ofList (if task = .run then firstLine cs else cs)

/-- The text of the program. -/
def document (around : Surroundings) (i : Invocation) : Action Document := do
  match i.file, i.argument with
  | some file, _ =>
    let path := Path.ofText file
    let text ← Action.orCrash .file ((← get).workspace.read path)
    return ⟨String.ofList (Text.withLineFeeds text.toList), path.text⟩
  | none, some text => return ⟨text, "<argument>"⟩
  | none, none =>
    let text ← Action.orCrash .file around.input.read
    return ⟨inputText i.task text, Document.defaultName⟩

/-- Show an error and end, or break off if there is nothing to show. -/
def refuse {α : Type} (settings : Settings) (d : Document) (e : Failure) : Action α := do
  match settings.fault? e with
  | some fault =>
    Action.say (fault.diagnostic.render settings.color.isOn d)
    Action.exit 1
  | none => Action.crash (.failure e)

/-- Whether an error says that the limit is exceeded. -/
def isTooDeep : Failure → Bool
  | .parse (.nestingTooDeep _ _) | .parse .nestingTooDeepAtNothing => true
  | _ => false

/-- The program that a text spells. No text has more levels than characters, or than one if it has
none. A limit that is no number does not matter as long as nothing is nested at all. -/
def parseDocument (settings : Settings) (d : Document) : Action Program := do
  match settings.limit.levels? (d.text.length + 1) with
  | some limit =>
    match Program.parse d.text limit with
    | .ok p => return p
    | .error e => refuse settings d e
  | none =>
    match Program.parse d.text 0 with
    | .ok p => return p
    | .error e => if isTooDeep e then Action.crash .wrongKind else refuse settings d e

/-- A value as a text, which has to be short enough to be shown. -/
def settingText (v : Toml.Value) : Action String :=
  match v.text? with
  | some text => return text
  | none => do
    Action.say s!"error: {Toml.longIntegerMessage}"
    Action.exit 1

/-- What is given as an option's value. An empty text counts as nothing. -/
def given? (option : Option String) : Option String :=
  option.filter fun text => text ≠ ""

/-- What is given as an option's value, or else what is set in its place. -/
def chosen (option : Option String) (set : Action String) : Action String :=
  match given? option with
  | some text => return text
  | none => set

/-- The name of a target that is set. What is made of several values is no name at all. -/
def targetName (v : Toml.Value) : Action String :=
  if v.isCompound then Action.crash .wrongKind else settingText v

/-- The code of a program. -/
def listing (settings : Settings) (p : Program) (target entry : Option String) :
    Action String := do
  let name ← chosen target (targetName settings.target)
  match Assembly.Target.ofName? name with
  | none =>
    Action.say s!"error: {Assembly.Target.unknownMessage name}"
    Action.exit 1
  | some target =>
    let entry ← chosen entry (settingText settings.entry)
    Action.orCrash (fun e => .failure (.target e)) (p.compile target entry)

/-! ## The tasks -/

/-- Run a program and print its value. -/
def run (around : Surroundings) (settings : Settings) (d : Document) (p : Program) :
    Action Unit := do
  match p.eval around.turns with
  | .ok n _ => Action.printLine around (toString n)
  | .error (.error e) _ => refuse settings d (.eval e)
  | .error .outOfTurns _ => throw .outOfTurns

/-- Print the code of a program, or write it to a file. -/
def compile (around : Surroundings) (settings : Settings) (p : Program)
    (output target entry : Option String) : Action Unit := do
  let code ← listing settings p target entry
  match output with
  | none => Action.print around code
  | some file =>
    Action.write around (Path.ofText file) code
    Action.say s!"wrote {file}"

def outputPath (settings : Settings) (output : Option String) : Action Path :=
  match given? output, settings.output with
  | some text, _ | none, .string text => return Path.ofText text
  | none, _ => Action.crash .wrongKind

/-- The command that assembles and links: the one that is set, whatever it is, unless it is switched
off, or else one that is found. -/
def assembler? (around : Surroundings) (settings : Settings) : Option Toml.Value :=
  if settings.assembler.isOn then some settings.assembler
  else around.tools.found?.map .string

/-- What is printed of a program that has been built. -/
def builtLine (binary : Path) : String :=
  s!"built {binary.text}"

/-- Write the code of a program beside the path of the output, and assemble and link it. -/
def build (around : Surroundings) (settings : Settings) (p : Program)
    (output target entry : Option String) : Action Unit := do
  let code ← listing settings p target entry
  let binary ← outputPath settings output
  let some listing := binary.withSuffix? ".s" | Action.crash .noFileName
  Action.write around listing code
  let command := assembler? around settings
  let arguments := Assembly.Toolchain.arguments listing binary
  modify fun s => { s with started := command.map fun v => (v, arguments) }
  match around.tools.run (command.map fun v => v.text?.getD "") with
  | .built => Action.printLine around (builtLine binary)
  | .failed e =>
    Action.say s!"error: {e.message}"
    if e.messages ≠ "" then Action.say e.messages
    Action.exit 1
  | .broken e => Action.crash (.tool e)

/-- Show the warnings about a program, and print how many there are. -/
def check (around : Surroundings) (settings : Settings) (d : Document) (p : Program) :
    Action Unit := do
  let found ← Action.orCrash (fun e => .failure (.target e)) p.check
  found.diagnostics.forM fun diagnostic => Action.say (diagnostic.render settings.color.isOn d)
  if found.hasErrors then Action.exit 1
  let warnings := found.diagnostics.countP fun g => g.severity = .warning
  if warnings = 0 then Action.printLine around s!"checked {d.name}: no errors"
  else Action.printLine around s!"checked {d.name}: {warnings} warning(s)"

/-- What is printed of a file that has been laid out anew. -/
def formattedLine (file : String) : String :=
  s!"formatted {file}"

/-- Lay a program out anew: write its file if that changes it, or print it. -/
def format (around : Surroundings) (d : Document) (p : Program) (file : Option String)
    (onlyCheck : Bool) : Action Unit := do
  let text := p.print
  if onlyCheck then
    if text ≠ d.text then
      Action.printLine around s!"would reformat {d.name}"
      Action.exit 1
  else
    match file with
    | none => Action.print around text
    | some file =>
      if text ≠ d.text then
        Action.write around (Path.ofText file) text
        Action.printLine around (formattedLine file)

/-- A token in a listing of tokens, with the name of its kind in a column of this width. -/
def tokenLine (width : Nat) (token : Token) : String :=
  let kind := token.lexeme.kindName
  let blanks := String.ofList (List.replicate (width - kind.length) ' ')
  let value := match token.lexeme with
    | .num n => s!" {n}"
    | .ident name => s!" {String.ofList (Text.quoted name.toList)}"
    | _ => ""
  s!"{kind}{blanks} {token.span.text}{value}"

def viewTokens (around : Surroundings) (settings : Settings) (d : Document) : Action Unit := do
  match tokens d.text with
  | .error e => refuse settings d (.lex e)
  | .ok ts => ts.forM fun token => Action.printLine around (tokenLine 12 token)

def viewOutline (around : Surroundings) (p : Program) : Action Unit :=
  (p.outlineLines 0).forM (Action.printLine around)

/-- Perform a task. -/
def perform (around : Surroundings) (i : Invocation) : Action Unit := do
  let w := (← get).workspace
  let settings ← Action.orCrash .discovery (w.settings w.here)
  let d ← document around i
  match i.task with
  | .view true => viewTokens around settings d
  | task =>
    let p ← parseDocument settings d
    match task with
    | .run => run around settings d p
    | .compile output target entry => compile around settings p output target entry
    | .build output target entry => build around settings p output target entry
    | .check => check around settings d p
    | .format onlyCheck => format around d p i.file onlyCheck
    | .view _ => viewOutline around p

/-- What an action makes of a workspace. An action that ends by itself ends with code 0. -/
def Action.outcome (action : Action Unit) (w : Workspace) : Ending × Session :=
  match action (.start w) with
  | .ok () s => (.exit 0, s)
  | .error ending s => (ending, s)

/-! ## Command lines -/

/-- What a command line asks for. -/
inductive Request where
  | perform (i : Invocation)
  | print (text : String)
  /-- It ends at once. -/
  | finish (ending : Ending)
  deriving DecidableEq, Repr

/-- How command lines are read. Whoever reads them may look at the workspace. -/
abbrev Reader := List String → Workspace → Request

/-- What a command line does. -/
def outcome (reader : Reader) (around : Surroundings) (arguments : List String) (w : Workspace) :
    Ending × Session :=
  Action.outcome (match reader arguments w with
    | .perform i => perform around i
    | .print text => Action.printLine around text
    | .finish ending => throw ending) w

end Imp32.Command
