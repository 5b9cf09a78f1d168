import Imp32.Assembly.Arm64
import Imp32.Assembly.X86

/-!
# Emitting code for a target

An emitter collects the steps of a listing. It numbers the labels, one sequence for all of them,
and remembers, in the order of their first use, the kinds of failure that the code branches to, so
that one handler for each can follow the code.
-/

namespace Imp32.Assembly

/-- A machine that code is written for. -/
inductive Target where
  | arm64 | x86
  deriving DecidableEq, Repr

namespace Target

/-- The names of the targets, in the order they are listed. -/
def names : List (String × Target) :=
  [("aarch64", arm64), ("amd64", x86), ("arm64", arm64), ("x86_64", x86)]

def ofName? (name : String) : Option Target :=
  (names.find? fun pair => pair.1 = name).map Prod.snd

def unknownMessage (name : String) : String :=
  let known := ", ".intercalate (names.map Prod.fst)
  s!"unknown target '{name}' (expected one of: {known})"

/-- The stems of the labels inside an operation's expansion. -/
def scratch : Target → Op → List String
  | arm64 => Arm64.scratch
  | x86 => X86.scratch

def lines (target : Target) (step : Step) : List String :=
  match target with
  | arm64 => (Arm64.expand step).map (Line.text Arm64.Instr.text)
  | x86 => (X86.expand step).map (Line.text X86.Instr.text)

/-- Why an operation's expansion is not complete, if it is not. -/
def refusal? : Target → Op → Option EmitError
  | arm64 => Arm64.refusal?
  | x86 => X86.refusal?

end Target

def freshLabels : (stems : List String) → (number : Nat) → List Label
  | [], _ => []
  | stem :: rest, number => .fresh stem (number + 1) :: freshLabels rest (number + 1)

theorem length_freshLabels (stems : List String) (number : Nat) :
    (freshLabels stems number).length = stems.length := by
  induction stems generalizing number with
  | nil => rfl
  | cons stem rest ih => simp [freshLabels, ih]

def Op.step (target : Target) (op : Op) (number : Nat) : Step :=
  ⟨op, freshLabels (target.scratch op) number⟩

/-- A name added behind the others, unless it is there. -/
def addNew (names : List String) (name : String) : List String :=
  if names.contains name then names else names ++ [name]

/-- What has been emitted. -/
structure Emitter where
  steps : List Step
  /-- The number of labels that have been given out. -/
  labels : Nat
  /-- The kinds of failure that have been used. -/
  traps : List String
  deriving DecidableEq, Repr

namespace Emitter

def empty : Emitter := ⟨[], 0, []⟩

def newLabel (e : Emitter) (stem : String) : Label × Emitter :=
  (.fresh stem (e.labels + 1), { e with labels := e.labels + 1 })

/-- The label of a handler, which is going to be used. -/
def trapLabel (e : Emitter) (kind : String) : Label × Emitter :=
  (.trap kind, { e with traps := addNew e.traps kind })

/-- Add steps, with the kinds of failure that they use. -/
def append (e : Emitter) (steps : List Step) : Emitter :=
  { e with
    steps := e.steps ++ steps
    traps := (steps.flatMap fun step => step.op.trapKinds).foldl addNew e.traps }

/-- Emit an operation. What a refused operation has emitted stays. -/
def emit (target : Target) (e : Emitter) (op : Op) : Option EmitError × Emitter :=
  let step := op.step target e.labels
  let e := e.append [step]
  (target.refusal? op, { e with labels := e.labels + step.scratch.length })

/-- The handlers of these kinds of failure, up to the first that has no code. -/
def handlers : List String → List Op × Option EmitError
  | [] => ([], none)
  | kind :: rest =>
    match trapCode? kind with
    | none => ([.label (.trap kind)], some (.unknownTrap kind))
    | some code =>
      let (ops, error) := handlers rest
      (.label (.trap kind) :: .trap code :: ops, error)

/-- Emit a handler for each kind of failure in use. -/
def emitHandlers (e : Emitter) : Option EmitError × Emitter :=
  let (ops, error) := handlers e.traps
  (error, e.append (ops.map (⟨·, []⟩)))

def lines (target : Target) (e : Emitter) : List String :=
  e.steps.flatMap target.lines

def output (target : Target) (e : Emitter) : String :=
  "\n".intercalate (e.lines target) ++ "\n"

end Emitter

end Imp32.Assembly
