import Imp32.Assembly.Emitter
import Imp32.Program.Check

/-!
# Compiling programs

The code of an expression leaves one value on the stack, and the code of a statement leaves its
value in the result register and the stack as it was. A loop keeps the value of its last turn on
top of the stack. The variables have slots, numbered by their first occurrence in the program;
clauses and bodies that never run count.

Labels are numbered in the order in which the program is walked: a statement takes its labels
before its condition does, and an operation takes those of its expansion when it is emitted.
-/

namespace Imp32

/-! ## Slots -/

/-- The variables of an expression, behind those that have been found. -/
def Expr.collect (found : List String) : Expr → List String
  | .value _ _ => found
  | .var name _ => Assembly.addNew found name
  | .neg a _ => a.collect found
  | .binary a _ b _ => b.collect (a.collect found)

def collectClause (found : List String) (e : Option Expr) : List String :=
  match e with
  | some e => e.collect found
  | none => found

mutual

/-- The variables of a statement, behind those that have been found. -/
def Stmt.collect (found : List String) : Stmt → List String
  | .expr e _ => e.collect found
  | .block body _ => collectAll found body
  | .ifThen cond body _ => collectAll (cond.collect found) body
  | .whileLoop cond body _ => collectAll (cond.collect found) body
  | .forLoop init cond update body _ =>
    collectAll (collectClause (collectClause (collectClause found init) cond) update) body

/-- The variables of statements in order. -/
def collectAll (found : List String) : Program → List String
  | [] => found
  | s :: rest => collectAll (s.collect found) rest

end

/-- The variables of a program in the order of their first occurrence. -/
def Program.slots (p : Program) : List String :=
  collectAll [] p

/-! ## Code -/

/-- An action that gives out labels. The state is the number of labels given out so far. -/
abbrev Compile := EStateM TargetError Nat

namespace Compile

open Assembly

def newLabel (stem : String) : Compile Label :=
  modifyGet fun n => (.fresh stem (n + 1), n + 1)

/-- The code of one operation. -/
def op (target : Target) (op : Op) : Compile (List Step) :=
  modifyGet fun n =>
    let step := op.step target n
    ([step], n + step.scratch.length)

/-- The code of operations in order. -/
def ops (target : Target) : List Op → Compile (List Step)
  | [] => return []
  | o :: rest => do
    let first ← op target o
    let others ← ops target rest
    return first ++ others

def operation (op : BinaryOp) : Op :=
  if op.isComparison then .compare op
  else if op = .pow then .pow
  else .arith op

end Compile

open Assembly in
/-- The code of an expression. -/
def Expr.code (target : Target) (slots : List String) : Expr → Compile (List Step)
  | .value n _ => Compile.op target (.pushImm n)
  | .var name _ => Compile.ops target [.loadVar (slots.idxOf name), .pushResult]
  | .neg a _ => do
    let operand ← a.code target slots
    let apply ← Compile.ops target [.popResult, .negate, .pushResult]
    return operand ++ apply
  | .binary a .assign b _ => do
    let right ← b.code target slots
    match a with
    | .var name _ =>
      let store ← Compile.ops target [.popResult, .storeVar (slots.idxOf name), .pushResult]
      return right ++ store
    | _ => throw .notVariable
  | .binary a op b _ => do
    let left ← a.code target slots
    let right ← b.code target slots
    let apply ← Compile.ops target [.popOperands, Compile.operation op, .pushResult]
    return left ++ right ++ apply

namespace Compile

open Assembly

/-- The code of an optional clause's effect: its value is dropped. -/
def clause (target : Target) (slots : List String) (e : Option Expr) : Compile (List Step) :=
  match e with
  | some e => do
    let value ← e.code target slots
    let drop ← op target .popResult
    return value ++ drop
  | none => return []

/-- The code that tests a condition and leaves for a label unless it holds. -/
def test (target : Target) (slots : List String) (cond : Expr) (exit : Label) :
    Compile (List Step) := do
  let value ← cond.code target slots
  let leave ← ops target [.popResult, .branchIfNotPositive exit]
  return value ++ leave

/-- The code of a loop. The value of the last turn is on top of the stack before and during it. -/
def loop (target : Target) (slots : List String) (cond : Expr) (body : Compile (List Step))
    (update : Option Expr) : Compile (List Step) := do
  let head ← newLabel "loop"
  let exit ← newLabel "loop_end"
  let enter ← op target (.label head)
  let check ← test target slots cond exit
  let turn ← body
  let keep ← op target .storeTop
  let next ← clause target slots update
  let leave ← ops target [.branch head, .label exit, .popResult]
  return enter ++ check ++ turn ++ keep ++ next ++ leave

end Compile

/-- The code of a body: zero if there are no statements. -/
def Compile.body (target : Assembly.Target) (empty : Bool) (code : Compile (List Assembly.Step)) :
    Compile (List Assembly.Step) :=
  if empty then Compile.op target .loadZero else code

mutual

/-- The code of a statement. -/
def Stmt.code (target : Assembly.Target) (slots : List String) :
    Stmt → Compile (List Assembly.Step)
  | .expr e _ => Compile.clause target slots (some e)
  | .block body _ => Compile.body target body.isEmpty (statementsCode target slots body)
  | .ifThen cond body _ => do
    let otherwise ← Compile.newLabel "else"
    let exit ← Compile.newLabel "end"
    let check ← Compile.test target slots cond otherwise
    let inner ← Compile.body target body.isEmpty (statementsCode target slots body)
    let leave ← Compile.ops target
      [.branch exit, .label otherwise, .loadZero, .label exit]
    return check ++ inner ++ leave
  | .whileLoop cond body _ => do
    let first ← Compile.op target (.pushImm 0)
    let turn := Compile.body target body.isEmpty (statementsCode target slots body)
    let rest ← Compile.loop target slots cond turn none
    return first ++ rest
  | .forLoop init cond update body _ => do
    let first ← match init with
      | some e => e.code target slots
      | none => Compile.op target (.pushImm 0)
    match cond with
    | none =>
      let zero ← Compile.ops target [.popResult, .loadZero]
      return first ++ zero
    | some cond =>
      let turn := Compile.body target body.isEmpty (statementsCode target slots body)
      let rest ← Compile.loop target slots cond turn update
      return first ++ rest

/-- The code of statements in order. -/
def statementsCode (target : Assembly.Target) (slots : List String) :
    Program → Compile (List Assembly.Step)
  | [] => return []
  | s :: rest => do
    let first ← s.code target slots
    let others ← statementsCode target slots rest
    return first ++ others

end

/-! ## Listings -/

/-- The code of a program as a function, without the handlers of its failures. -/
def Program.code (target : Assembly.Target) (entry : String) (p : Program) :
    Compile (List Assembly.Step) := do
  let first ← Compile.ops target
    [.textSection, .global entry, .prologue entry p.slots.length]
  let body ← Compile.body target p.isEmpty (statementsCode target p.slots p)
  let last ← Compile.op target .epilogue
  return first ++ body ++ last

/-- Emit a program behind what has been emitted: its code, then a handler for each kind of failure
in use. -/
def Assembly.Emitter.emitProgram (target : Target) (entry : String) (p : Program) (e : Emitter) :
    Except TargetError Emitter :=
  match p.code target entry e.labels with
  | .ok steps labels => .ok ({ e.append steps with labels := labels }.emitHandlers).2
  | .error error _ => .error error

/-- Emit a program a number of times. -/
def Assembly.Emitter.emitTimes (target : Target) (entry : String) (p : Program) :
    (times : Nat) → Emitter → Except TargetError Emitter
  | 0, e => .ok e
  | times + 1, e => do
    let e ← e.emitProgram target entry p
    e.emitTimes target entry p times

/-- The assembly text of a program. -/
def Program.compile (target : Assembly.Target) (entry : String) (p : Program) :
    Except TargetError String := do
  let e ← Assembly.Emitter.empty.emitProgram target entry p
  return e.output target

/-- The target unless another is chosen. -/
def defaultTarget : String := "arm64"

/-- The entry symbol unless another is chosen. -/
def defaultEntry : String := "_main"

end Imp32
