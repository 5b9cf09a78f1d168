import Imp32.Workspace

/-!
# Assembling and linking

A listing becomes a program by an outside command. It is the one that is asked for, or else the
first of a few well-known ones that is installed. What the command does is not known here: a
toolchain says which commands are installed and how the one that is run ends.
-/

namespace Imp32.Assembly

/-- How an outside command ends. -/
inductive CommandResult where
  /-- It ends with a code, and what it said is a text or bytes that are none. -/
  | ended (code : Int) (messages : Contents)
  /-- There is no such command. -/
  | missing
  /-- It cannot be started for another reason. -/
  | refused
  /-- It takes too long. -/
  | timedOut
  deriving DecidableEq, Repr

/-- The outside commands. -/
structure Toolchain where
  installed : List String
  result : CommandResult
  deriving Repr

/-- Why a listing does not become a program, as far as there are words for it. -/
inductive AssembleError where
  | noAssembler
  | notFound (command : String)
  | timedOut
  | failed (code : Int) (messages : String)
  deriving DecidableEq, Repr

namespace AssembleError

def message : AssembleError → String
  | noAssembler => "no assembler found (install gcc or clang)"
  | notFound command => s!"assembler '{command}' not found"
  | timedOut => "assembly timed out"
  | failed code _ => s!"assembly failed (exit {code})"

def messages : AssembleError → String
  | failed _ messages => messages
  | _ => ""

end AssembleError

/-- Why running a command breaks off. No error stands for this. -/
inductive ToolFault where
  | cannotStart
  /-- What the command said is no text. -/
  | notText
  deriving DecidableEq, Repr

def ToolFault.message : ToolFault → String
  | cannotStart => "the assembler cannot be started"
  | notText => "the assembler says what is no text"

/-- What becomes of a listing. -/
inductive Assembled where
  | built
  | failed (e : AssembleError)
  | broken (e : ToolFault)
  deriving DecidableEq, Repr

namespace Toolchain

/-- The commands that are looked for, in this order. -/
def known : List String := ["gcc", "cc", "clang"]

/-- The first known command that is installed. -/
def found? (tools : Toolchain) : Option String :=
  known.find? tools.installed.contains

/-- What the command is told that makes a program of a listing. -/
def arguments (listing output : Path) : List String :=
  [listing.text, "-o", output.text]

/-- What becomes of a listing when this command is run, if there is one at all. What it says is read
whatever its code is. -/
def run (tools : Toolchain) (command : Option String) : Assembled :=
  match command with
  | none => .failed .noAssembler
  | some command =>
    match tools.result with
    | .missing => .failed (.notFound command)
    | .refused => .broken .cannotStart
    | .timedOut => .failed .timedOut
    | .ended _ .bytes => .broken .notText
    | .ended code (.text messages) => if code = 0 then .built else .failed (.failed code messages)

/-- The listing is built just if there is a command and it ends with code 0, having said a text. -/
theorem run_eq_built {tools : Toolchain} {command : Option String} :
    tools.run command = .built ↔
      command.isSome ∧ ∃ messages, tools.result = .ended 0 (.text messages) := by
  unfold run
  cases command with
  | none => simp
  | some command =>
    cases tools.result with
    | ended code messages =>
      cases messages with
      | bytes => simp
      | text messages => by_cases hcode : code = 0 <;> simp [hcode]
    | _ => simp

end Toolchain

end Imp32.Assembly
