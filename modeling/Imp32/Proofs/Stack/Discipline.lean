import Imp32.Proofs.Compiler.Linking
import Imp32.Proofs.Stack.Cells
import Imp32.Proofs.Stack.Shape

/-!
# Stack discipline

`KeepsStack` says what a target's code does with its stack. The number of operands in front of a
line is the sum of what the lines before it add and take (`depthAt`), whichever path leads there
(`Leveled`), and wherever a run is between the prologue and the epilogue, the stack pointer and the
memory are as that number says (`Safe`).
-/

namespace Imp32.Assembly

/-- What a target's code runs on, as far as the stack goes. -/
structure Platform (Instr σ ο : Type) where
  target : Target
  expand : Step → List (Line Instr)
  text : Instr → String
  exec : Instr → σ → Effect σ ο
  sp : σ → Int
  memory : σ → Memory
  /-- By how many operands an instruction makes the stack deeper. -/
  net : Instr → Int
  /-- The address that an instruction writes an operand to, and the operand. -/
  writes : Instr → σ → Option (Int × Int)
  /-- The address that an instruction reads an operand from. -/
  reads : Instr → σ → Option Int
  /-- Where a function with slots that is entered in a state has its frame. -/
  frame : σ → Nat → Frame
  /-- Where a function that is entered in a state saves registers. -/
  saved : σ → List Int
  /-- The stack is aligned as it has to be where a function is entered. -/
  Aligned : σ → Prop

/-- Two cells do not overlap. -/
def Apart (a b : Int) : Prop := a + 8 ≤ b ∨ b + 8 ≤ a

section Statement

variable {Instr σ ο : Type} (t : Platform Instr σ ο) (lines : List (Line Instr)) (first last : Nat)

/-- How many operands there are in front of a line, counted from the first line on. -/
def depthAt (k : Nat) : Int := netOf t.net ((lines.take k).drop first)

/-- A path from the first line to another one, with the number of operands that it adds. It goes
where some state of the machine would go, but to no handler. -/
inductive Walk : Nat → Int → Prop
  | start : Walk first 0
  | step {k k' : Nat} {d : Int} {x : Line Instr} {s s' : σ} : Walk k d → lines[k]? = some x →
    stepLine t.exec lines ⟨k, s⟩ = .go ⟨k', s'⟩ →
    (∀ l, lines[k']? = some (.label l) → l.isTrap = false) → Walk k' (d + x.net t.net)

/-- The number of operands is static. -/
structure Leveled : Prop where
  walk : ∀ k d, Walk t lines first k d → d = depthAt t lines first k
  /-- A branch that goes to no handler goes to its label, which is set at its depth. -/
  branch : ∀ k i s l s', first ≤ k → lines[k]? = some (.instr i) → t.exec i s = .jump l s' →
    l.isTrap = false → ∃ k', resolve lines l = some k' ∧ first ≤ k' ∧ k' < last ∧
      lines[k']? = some (.label l) ∧ depthAt t lines first k' = depthAt t lines first k
  nonneg : ∀ k, first ≤ k → k ≤ last → 0 ≤ depthAt t lines first k
  epilogue : depthAt t lines first last = 0

/-- After a number of steps, an address holds what a step between the first and the last line has
written there as an operand. -/
def Written (start : Point σ) (n : Nat) : Origin := fun a v =>
  ∃ m q i, m < n ∧ runFor (stepLine t.exec lines) m start = .go q ∧ first ≤ q.line ∧
    q.line < last ∧ lines[q.line]? = some (.instr i) ∧ t.writes i q.state = some (a, v) ∧
    ∀ j, m < j → j ≤ n → ∃ q', runFor (stepLine t.exec lines) j start = .go q' ∧
      t.memory q'.state a = some v

/-- A state in front of a line, with a number of operands of some origin. -/
structure Safe (f : Frame) (saved : List Int) (origin : Origin) (depth : Int) (q : Point σ) :
    Prop where
  sp : t.sp q.state = f.base - 16 * depth
  aligned : t.sp q.state % 16 = 0
  below : t.sp q.state ≤ f.base
  /-- A slot has all bits set or holds a word. -/
  slots : ∀ k < f.slots, ∃ v, t.memory q.state (f.slot k) = some v ∧ IsCell v
  /-- Operands are written neither to slots nor to where registers are saved. -/
  writes : ∀ i, lines[q.line]? = some (.instr i) → ∀ a v, t.writes i q.state = some (a, v) →
    (∀ k < f.slots, Apart a (f.slot k)) ∧ ∀ b ∈ saved, Apart a b
  /-- Operands that are read are words that have been written as operands. -/
  reads : ∀ i, lines[q.line]? = some (.instr i) → ∀ a, t.reads i q.state = some a →
    ∃ v, t.memory q.state a = some v ∧ IsWord v ∧ origin a v

/-- A run from the entry gets behind the prologue, and wherever it is from there to the epilogue, it
is safe. -/
def Guarded (slots : Nat) : Prop :=
  ∃ entry, resolve lines (.named defaultEntry) = some entry ∧ ∀ s, t.Aligned s →
    (∃ m s', runFor (stepLine t.exec lines) m ⟨entry, s⟩ = .go ⟨first, s'⟩) ∧
    ∀ n q, runFor (stepLine t.exec lines) n ⟨entry, s⟩ = .go q → first ≤ q.line → q.line ≤ last →
      Safe t lines (t.frame s slots) (t.saved s) (Written t lines first last ⟨entry, s⟩ n)
        (depthAt t lines first q.line) q

end Statement

/-- The code of a program keeps the discipline of the stack. -/
structure KeepsStack {Instr σ ο : Type} (t : Platform Instr σ ο) (p : Program) : Prop where
  expression : ∀ (e : Expr) names n steps n', e.code t.target names n = .ok steps n' →
    netOf t.net (steps.flatMap t.expand) = 1
  statement : ∀ (s : Stmt) names n steps n', s.code t.target names n = .ok steps n' →
    netOf t.net (steps.flatMap t.expand) = 0
  /-- The code of the program stands between the opening and the epilogue of its listing. -/
  program : ∃ before code after : List (Line Instr),
    p.compile t.target defaultEntry = .ok
      ("\n".intercalate ((before ++ code ++ after).map (Line.text t.text)) ++ "\n") ∧
    before = (Op.opening p.slots.length).flatMap (fun o => t.expand ⟨o, []⟩) ∧
    (∃ body n, Compile.body t.target p.isEmpty (statementsCode t.target p.slots p) 0 =
      .ok body n ∧ code = body.flatMap t.expand) ∧
    t.expand ⟨.epilogue, []⟩ <+: after ∧
    Leveled t (before ++ code ++ after) before.length (before.length + code.length) ∧
    Guarded t (before ++ code ++ after) before.length (before.length + code.length) p.slots.length

end Imp32.Assembly
