import Imp32.Command.Perform

/-!
# Reading command lines

A command line names a task and says where its program comes from: a file, the command line itself
or the standard input. Options may stand before and behind the program, with their value in the
next argument, behind an equals sign or, for an option of one letter, right behind the letter. Of
an option that is given more than once the last counts. Two dashes end the options. The paths that
options name are looked at before anything else is done.

This is one reader of command lines (`readLine`), and nothing that is said of commands depends on
it.
-/

namespace Imp32.Command

/-- An option of a task. -/
inductive Opt where
  | file | output | target | entry | check | tokens | help
  deriving DecidableEq, Repr

namespace Opt

def name : Opt → String
  | file => "--file"
  | output => "--output"
  | target => "--target"
  | entry => "--entry"
  | check => "--check"
  | tokens => "--tokens"
  | help => "--help"

def letter? : Opt → Option Char
  | output => some 'o'
  | _ => none

def takesValue : Opt → Bool
  | check | tokens | help => false
  | _ => true

end Opt

/-- What a command line spells. -/
inductive Line where
  | version
  | help
  | serve
  /-- An invocation with its options, each where it is given first. -/
  | perform (i : Invocation) (given : List Opt)
  deriving DecidableEq, Repr

/-! ## Single arguments -/

/-- What an argument is. -/
inductive Argument where
  /-- It is no option. -/
  | plain
  /-- It ends the options. -/
  | endOfOptions
  | flag (opt : Opt)
  /-- An option with its value. -/
  | given (opt : Opt) (value : String)
  /-- An option whose value is the next argument. -/
  | awaiting (opt : Opt)
  /-- No option is written like this. -/
  | unknown
  deriving DecidableEq, Repr

/-- Whether an argument is written like an option. A dash alone is not. -/
def looksLikeOption : List Char → Bool
  | '-' :: _ :: _ => true
  | _ => false

/-- The text in front of the first equals sign, and the text behind it if there is one. -/
def splitAtEquals (arg : List Char) : String × Option String :=
  let name := String.ofList (arg.takeWhile (· ≠ '='))
  match arg.dropWhile (· ≠ '=') with
  | [] => (name, none)
  | _ :: value => (name, some (String.ofList value))

/-- An option by its letter: what follows the letter is its value. -/
def Argument.ofLetters (opts : List Opt) : List Char → Argument
  | [] => .unknown
  | letter :: value =>
    match opts.find? fun opt => opt.letter? = some letter with
    | none => .unknown
    | some opt => if value.isEmpty then .awaiting opt else .given opt (String.ofList value)

/-- What an argument is where these options may be given. -/
def Argument.ofText (opts : List Opt) (text : String) : Argument :=
  let arg := text.toList
  if arg = ['-', '-'] then .endOfOptions
  else if !looksLikeOption arg then .plain
  else
    let (name, value) := splitAtEquals arg
    match opts.find? fun opt => opt.name = name with
    | some opt =>
      match opt.takesValue, value with
      | true, some value => .given opt value
      | true, none => .awaiting opt
      | false, some _ => .unknown
      | false, none => .flag opt
    | none => if arg.take 2 = ['-', '-'] then .unknown else .ofLetters opts arg.tail

/-! ## Whole command lines -/

/-- Arguments in order: options with their values, where a flag has none, and what is no option. -/
structure Arguments where
  options : List (Opt × String)
  plain : List String
  deriving DecidableEq, Repr

namespace Arguments

def addOption (opt : Opt) (value : String) (a : Arguments) : Arguments :=
  { a with options := (opt, value) :: a.options }

def addPlain (text : String) (a : Arguments) : Arguments :=
  { a with plain := text :: a.plain }

/-- The arguments that the texts are, unless one is wrong. -/
def ofTexts? (opts : List Opt) : List String → Option Arguments
  | [] => some ⟨[], []⟩
  | text :: rest =>
    match Argument.ofText opts text with
    | .plain => (ofTexts? opts rest).map (addPlain text)
    | .endOfOptions => some ⟨[], rest⟩
    | .flag opt => (ofTexts? opts rest).map (addOption opt "")
    | .given opt value => (ofTexts? opts rest).map (addOption opt value)
    | .awaiting opt =>
      match rest with
      | [] => none
      | value :: rest => (ofTexts? opts rest).map (addOption opt value)
    | .unknown => none

/-- The last value of an option. -/
def value? (a : Arguments) (opt : Opt) : Option String :=
  (a.options.reverse.find? fun given => given.1 = opt).map Prod.snd

def has (a : Arguments) (opt : Opt) : Bool :=
  (a.value? opt).isSome

end Arguments

/-- What is spelled by arguments of a task with a program. One program at most may be given. -/
def Line.ofTask? (task : Task) (a : Arguments) : Option Line :=
  if 1 < a.plain.length then none
  else some (.perform ⟨task, a.value? .file, a.plain.head?⟩ (a.options.map Prod.fst).eraseDups)

/-- The commands by name: the options of each and what its arguments spell. -/
def commands : List (String × List Opt × (Arguments → Option Line)) :=
  let code : List Opt := [.file, .output, .target, .entry, .help]
  [("run", [.file, .help], fun a => Line.ofTask? .run a),
    ("compile", code, fun a =>
      Line.ofTask? (.compile (a.value? .output) (a.value? .target) (a.value? .entry)) a),
    ("build", code, fun a =>
      Line.ofTask? (.build (a.value? .output) (a.value? .target) (a.value? .entry)) a),
    ("check", [.file, .help], fun a => Line.ofTask? .check a),
    ("format", [.file, .check, .help], fun a => Line.ofTask? (.format (a.has .check)) a),
    ("lsp", [.help], fun a => if a.plain.isEmpty then some .serve else none),
    ("view", [.file, .tokens, .help], fun a => Line.ofTask? (.view (a.has .tokens)) a)]

/-- What the arguments behind the name of a command spell, unless they are wrong. -/
def Line.ofCommand? (name : String) (texts : List String) : Option Line := do
  let (_, opts, made) ← commands.find? fun entry => entry.1 = name
  let a ← Arguments.ofTexts? opts texts
  if a.has .help then some .help else made a

/-- What an option in front of a task spells. -/
def Line.ofOption? : String → Option Line
  | "--version" => some .version
  | "--help" => some .help
  | _ => none

/-- What the options in front of a task spell, and the texts behind them, unless one is wrong. -/
def Line.ofOptions? : List String → Option (List Line × List String)
  | [] => some ([], [])
  | text :: rest =>
    if text = "--" then some ([], rest)
    else if !looksLikeOption text.toList then some ([], text :: rest)
    else do
      let line ← ofOption? text
      let (lines, behind) ← ofOptions? rest
      return (line :: lines, behind)

def isCommand (name : String) : Bool :=
  commands.any fun entry => entry.1 = name

/-- What a command line spells, unless it is wrong. The first option in front of a task counts, and
the task does not. What stands in the place of a task and is none may still be an option, even
behind the dashes that end the options. -/
def Line.ofArguments? (arguments : List String) : Option Line := do
  let (lines, behind) ← ofOptions? arguments
  match lines, behind with
  | line :: _, _ => some line
  | [], [] => none
  | [], name :: texts =>
    if isCommand name then ofCommand? name texts
    else
      let (lines, _) ← ofOptions? (name :: texts)
      lines.head?

/-! ## Paths -/

/-- What there is at the place that a text spells. Nothing is at the empty text, nor at one that is
too long. A slash at the end asks for a folder. -/
def look (w : Workspace) (text : String) : Option Entry :=
  if text = "" ∨ Workspace.maxPathBytes < text.utf8ByteSize then none
  else
    match w.walk (text.startsWith "/") (Path.namesOf text) with
    | .ok place => w.entry? place
    | .error _ => none

def isFile : Option Entry → Bool
  | some (.file _) => true
  | _ => false

/-- How a command ends for a path, unless what there is at its place is fit for use. -/
def checkPath (w : Workspace) (text : String) (fits : Option Entry → Bool) : Option Ending :=
  if Workspace.hasNull text then some (.crash (.file .nullCharacter))
  else if fits (look w text) then none
  else some .misuse

/-- How a command ends for the path of an option: a program is in a file, and code does not go where
a folder is. -/
def Invocation.checkOption (i : Invocation) (w : Workspace) : Opt → Option Ending
  | .file => i.file.bind fun text => checkPath w text isFile
  | .output => i.task.output?.bind fun text => checkPath w text fun entry => entry ≠ some .folder
  | _ => none

/-! ## Readers -/

def programName : String := "climb"

def versionLine : String := s!"{programName}, version 0.1.0"

def usageLine : String :=
  let names := " | ".intercalate (commands.map Prod.fst)
  s!"usage: {programName} ({names}) [OPTIONS] [PROGRAM]"

/-- What is asked for by what a command line spells. -/
def Line.request (w : Workspace) : Line → Request
  | version => .print versionLine
  | help => .print usageLine
  | serve => .finish .serving
  | perform i given =>
    match given.findSome? (i.checkOption w) with
    | some ending => .finish ending
    | none => .perform i

/-- Read a command line. -/
def readLine : Reader := fun arguments w =>
  match Line.ofArguments? arguments with
  | some line => line.request w
  | none => .finish .misuse

end Imp32.Command
