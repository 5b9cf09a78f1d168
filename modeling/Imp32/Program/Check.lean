import Imp32.Bindings
import Imp32.Diagnostic
import Imp32.Program

/-!
# Checking programs

A check goes through a program once, in the order of its text, and refuses nothing. It notes where
each variable is first assigned and where each is first read. It warns of a `for` without a
condition, whose body never runs, and, at the end, of each variable that is read somewhere and
assigned nowhere.
-/

namespace Imp32

/-- What a check has found so far. -/
structure Findings where
  /-- Each assigned variable, with the place of its first assignment. -/
  targets : Bindings Span
  /-- Each read variable, with the place of its first read. -/
  reads : Bindings Span
  /-- The warnings, in the order they came up. -/
  diagnostics : List Diagnostic
  deriving DecidableEq, Repr

abbrev Check := EStateM TargetError Findings

namespace Check

def warning (code message : String) (span : Span) (notes : List String) : Diagnostic :=
  ⟨.warning, code, message, [⟨span, ""⟩], notes⟩

def noCondition (span : Span) : Diagnostic :=
  warning "W300" "for loop has no condition; its body never runs" span
    ["the statement evaluates to 0"]

def neverAssigned (name : String) (span : Span) : Diagnostic :=
  warning "W301" s!"variable '{name}' is never assigned" span []

def read (name : String) (span : Span) : Check Unit :=
  modify fun f => { f with reads := f.reads.setNew name span }

def assigned (name : String) (span : Span) : Check Unit :=
  modify fun f => { f with targets := f.targets.setNew name span }

def warn (diagnostic : Diagnostic) : Check Unit :=
  modify fun f => { f with diagnostics := f.diagnostics ++ [diagnostic] }

end Check

/-- Check an expression. The right side of an assignment comes before its target. -/
def Expr.check : Expr → Check Unit
  | .value _ _ => return ()
  | .var name span => Check.read name span
  | .neg a _ => a.check
  | .binary a .assign b _ => do
    b.check
    match a with
    | .var name span => Check.assigned name span
    | _ => throw .notVariable
  | .binary a _ b _ => do
    a.check
    b.check

def checkClause (e : Option Expr) : Check Unit :=
  match e with
  | some e => e.check
  | none => return ()

mutual

/-- Check a statement. -/
def Stmt.check : Stmt → Check Unit
  | .expr e _ => e.check
  | .block body _ => checkAll body
  | .ifThen cond body _ => do
    cond.check
    checkAll body
  | .whileLoop cond body _ => do
    cond.check
    checkAll body
  | .forLoop init cond update body span => do
    checkClause init
    match cond with
    | some cond => cond.check
    | none => Check.warn (Check.noCondition span)
    checkClause update
    checkAll body

/-- Check statements in order. -/
def checkAll : Program → Check Unit
  | [] => return ()
  | s :: rest => do
    s.check
    checkAll rest

end

/-- The findings with a warning for each variable that is read and never assigned. -/
def Findings.finish (f : Findings) : Findings :=
  let missing := f.reads.filter fun pair => !f.targets.has pair.1
  let warnings := missing.map fun pair => Check.neverAssigned pair.1 pair.2
  { f with diagnostics := f.diagnostics ++ warnings }

def Findings.hasErrors (f : Findings) : Bool :=
  f.diagnostics.any fun d => d.severity = .error

/-- Check a program. -/
def Program.check (p : Program) : Except TargetError Findings :=
  match checkAll p ⟨[], [], []⟩ with
  | .ok _ f => .ok f.finish
  | .error e _ => .error e

end Imp32
