import Imp32.Program.Eval
import Imp32.Proofs.Machine

/-!
# The stack machine

The machine that operations are written for: a stack of operands, a result register, a register for
the right operand of an operator, and numbered slots. `Op.exec` says what an operation does. An
operation that fails jumps to the handler of its failure. What an operation leaves in a register
that it uses on the way is not known.

Targets expand operations into instructions; the stack machine is what all of them implement.
-/

namespace Imp32

/-- The kind of failure that an error is handled as. -/
def EvalError.trapKind? : EvalError → Option String
  | divisionByZero _ => some "div_zero"
  | unboundVariable _ _ => some "unbound"
  | negativeExponent _ _ => some "neg_exp"
  | targetNotVariable => none

namespace Assembly

/-- The state of the stack machine. -/
structure StackState where
  /-- The operands, the top of the stack first. -/
  operands : List Int
  /-- The result register, if its value is known. -/
  result : Option Int
  /-- The right operand, if its value is known. -/
  right : Option Int
  /-- The slots; an unassigned one holds nothing. -/
  slots : List (Option Int)
  deriving DecidableEq, Repr

/-- How the stack machine stops. -/
inductive StackStop where
  | returned (v : Int)
  | aborted (code : Int)
  deriving DecidableEq, Repr

/-- The operators that are computed with `Op.arith`. -/
def isArith (op : BinaryOp) : Bool :=
  op = .add || op = .sub || op = .mul || op = .div

/-- What applying an operator to operands does. A failure leaves the registers unknown. -/
def StackState.applied (s : StackState) (op : BinaryOp) (a b : Int) :
    Effect StackState StackStop :=
  match op.apply a b .none with
  | .ok r => .next { s with result := some r, right := none }
  | .error e =>
    match e.trapKind? with
    | some kind => .jump (.trap kind) { s with result := none, right := none }
    | none => .stuck

def StackState.apply (op : BinaryOp) (s : StackState) : Effect StackState StackStop :=
  match s.result, s.right with
  | some a, some b => s.applied op a b
  | _, _ => .stuck

/-- What an operation does. A function is entered before the machine starts. -/
def Op.exec (op : Op) (s : StackState) : Effect StackState StackStop :=
  match op with
  | .textSection | .global _ | .comment _ | .label _ => .next s
  | .prologue _ _ => .stuck
  | .epilogue =>
    match s.operands, s.result with
    | [], some v => .stop (.returned v)
    | _, _ => .stuck
  | .pushImm n =>
    .next { s with operands := Word.wrap n :: s.operands, result := some (Word.wrap n) }
  | .pushResult =>
    match s.result with
    | some v => .next { s with operands := v :: s.operands }
    | none => .stuck
  | .popResult =>
    match s.operands with
    | v :: rest => .next { s with operands := rest, result := some v }
    | [] => .stuck
  | .popOperands =>
    match s.operands with
    | b :: a :: rest => .next { s with operands := rest, result := some a, right := some b }
    | _ => .stuck
  | .storeTop =>
    match s.operands, s.result with
    | _ :: rest, some v => .next { s with operands := v :: rest }
    | _, _ => .stuck
  | .loadZero => .next { s with result := some 0 }
  | .loadVar slot =>
    match slot.toNat?.bind (s.slots[·]?) with
    | some (some v) => .next { s with result := some v }
    | some none => .jump (.trap "unbound") { s with result := none }
    | none => .stuck
  | .storeVar slot =>
    match s.result, slot.toNat? with
    | some v, some k =>
      if k < s.slots.length then .next { s with slots := s.slots.set k (some v) } else .stuck
    | _, _ => .stuck
  | .arith op => if isArith op then s.apply op else .stuck
  | .compare op => if op.isComparison then s.apply op else .stuck
  | .pow => s.apply .pow
  | .negate =>
    match s.result with
    | some v => .next { s with result := some (Word.wrap (-v)) }
    | none => .stuck
  | .branch target => .jump target s
  | .branchIfNotPositive target =>
    match s.result with
    | some v => if 0 < v then .next s else .jump target s
    | none => .stuck
  | .trap code => .stop (.aborted code)

section Applied

variable {s : StackState} {op : BinaryOp} {a b : Int}

theorem StackState.applied_of_ok {r : Int} (h : op.apply a b .none = .ok r) :
    s.applied op a b = .next { s with result := some r, right := none } := by
  unfold applied
  rw [h]

theorem StackState.applied_of_error {e : EvalError} {kind : String}
    (h : op.apply a b .none = .error e) (hkind : e.trapKind? = some kind) :
    s.applied op a b = .jump (.trap kind) { s with result := none, right := none } := by
  unfold applied
  simp only [h, hkind]

theorem StackState.applied_div_zero (h : b = 0) : s.applied .div a b =
    .jump (.trap "div_zero") { s with result := none, right := none } :=
  applied_of_error (if_pos h) rfl

theorem StackState.applied_div (h : b ≠ 0) : s.applied .div a b =
    .next { s with result := some (Word.quotient a b), right := none } :=
  applied_of_ok (if_neg h)

theorem StackState.applied_pow_neg (h : b < 0) : s.applied .pow a b =
    .jump (.trap "neg_exp") { s with result := none, right := none } :=
  applied_of_error (if_pos h) rfl

theorem StackState.applied_pow (h : ¬b < 0) : s.applied .pow a b =
    .next { s with result := some (Word.power a b.toNat), right := none } :=
  applied_of_ok (if_neg h)

end Applied

/-! ## What an operation does

An operation that finds what it needs does one thing, and else it is stuck. -/

section Cases

variable (s : StackState)

theorem pushResult_cases : Op.pushResult.exec s = .stuck ∨ ∃ v, s.result = some v ∧
    Op.pushResult.exec s = .next { s with operands := v :: s.operands } := by
  cases h : s.result with
  | none => exact .inl (by simp only [Op.exec, h])
  | some v => exact .inr ⟨v, rfl, by simp only [Op.exec, h]⟩

theorem popResult_cases : Op.popResult.exec s = .stuck ∨ ∃ v rest, s.operands = v :: rest ∧
    Op.popResult.exec s = .next { s with operands := rest, result := some v } := by
  cases h : s.operands with
  | nil => exact .inl (by simp only [Op.exec, h])
  | cons v rest => exact .inr ⟨v, rest, rfl, by simp only [Op.exec, h]⟩

theorem popOperands_cases : Op.popOperands.exec s = .stuck ∨
    ∃ b a rest, s.operands = b :: a :: rest ∧ Op.popOperands.exec s =
      .next { s with operands := rest, result := some a, right := some b } := by
  rcases h : s.operands with _ | ⟨b, _ | ⟨a, rest⟩⟩
  · exact .inl (by simp only [Op.exec, h])
  · exact .inl (by simp only [Op.exec, h])
  · exact .inr ⟨b, a, rest, rfl, by simp only [Op.exec, h]⟩

theorem storeTop_cases : Op.storeTop.exec s = .stuck ∨
    ∃ w rest v, s.operands = w :: rest ∧ s.result = some v ∧
      Op.storeTop.exec s = .next { s with operands := v :: rest } := by
  cases h : s.operands with
  | nil => exact .inl (by simp only [Op.exec, h])
  | cons w rest =>
    cases h' : s.result with
    | none => exact .inl (by simp only [Op.exec, h, h'])
    | some v => exact .inr ⟨w, rest, v, rfl, rfl, by simp only [Op.exec, h, h']⟩

/-- Loading from an assigned slot goes on, and from an unassigned one it fails. -/
theorem loadVar_cases (slot : Int) : (Op.loadVar slot).exec s = .stuck ∨
    ∃ k : Nat, slot = k ∧ ((∃ v, s.slots[k]? = some (some v) ∧
        (Op.loadVar slot).exec s = .next { s with result := some v }) ∨
      (s.slots[k]? = some none ∧
        (Op.loadVar slot).exec s = .jump (.trap "unbound") { s with result := none })) := by
  cases slot with
  | negSucc k => exact .inl rfl
  | ofNat k =>
    have hslot : (Int.ofNat k).toNat?.bind (s.slots[·]?) = s.slots[k]? := rfl
    rcases h : s.slots[k]? with _ | _ | v <;> rw [h] at hslot
    · exact .inl (by simp only [Op.exec, hslot])
    · exact .inr ⟨k, rfl, .inr ⟨h, by simp only [Op.exec, hslot]⟩⟩
    · exact .inr ⟨k, rfl, .inl ⟨v, h, by simp only [Op.exec, hslot]⟩⟩

theorem storeVar_cases (slot : Int) : (Op.storeVar slot).exec s = .stuck ∨
    ∃ (k : Nat) (v : Int), slot = k ∧ k < s.slots.length ∧ s.result = some v ∧
      (Op.storeVar slot).exec s = .next { s with slots := s.slots.set k (some v) } := by
  cases slot with
  | negSucc k =>
    cases h : s.result <;> exact .inl (by simp only [Op.exec, h, Int.toNat?])
  | ofNat k =>
    cases h : s.result with
    | none => exact .inl (by simp only [Op.exec, h])
    | some v =>
      by_cases hk : k < s.slots.length
      · exact .inr ⟨k, v, rfl, hk, rfl, by simp only [Op.exec, h, Int.toNat?, if_pos hk]⟩
      · exact .inl (by simp only [Op.exec, h, Int.toNat?, if_neg hk])

theorem negate_cases : Op.negate.exec s = .stuck ∨ ∃ v, s.result = some v ∧
    Op.negate.exec s = .next { s with result := some (Word.wrap (-v)) } := by
  cases h : s.result with
  | none => exact .inl (by simp only [Op.exec, h])
  | some v => exact .inr ⟨v, rfl, by simp only [Op.exec, h]⟩

theorem branchIfNotPositive_cases (target : Label) :
    (Op.branchIfNotPositive target).exec s = .stuck ∨ ∃ v, s.result = some v ∧
      (Op.branchIfNotPositive target).exec s = if 0 < v then .next s else .jump target s := by
  cases h : s.result with
  | none => exact .inl (by simp only [Op.exec, h])
  | some v => exact .inr ⟨v, rfl, by simp only [Op.exec, h]⟩

theorem epilogue_cases : Op.epilogue.exec s = .stuck ∨ ∃ v, s.operands = [] ∧ s.result = some v ∧
    Op.epilogue.exec s = .stop (.returned v) := by
  cases h : s.operands with
  | cons _ _ => exact .inl (by simp only [Op.exec, h])
  | nil =>
    cases h' : s.result with
    | none => exact .inl (by simp only [Op.exec, h, h'])
    | some v => exact .inr ⟨v, rfl, rfl, by simp only [Op.exec, h, h']⟩

theorem arith_cases (op : BinaryOp) : (Op.arith op).exec s = .stuck ∨
    isArith op = true ∧ (Op.arith op).exec s = s.apply op := by
  by_cases h : isArith op = true
  · exact .inr ⟨h, if_pos h⟩
  · exact .inl (if_neg h)

theorem compare_cases (op : BinaryOp) : (Op.compare op).exec s = .stuck ∨
    op.isComparison = true ∧ (Op.compare op).exec s = s.apply op := by
  by_cases h : op.isComparison = true
  · exact .inr ⟨h, if_pos h⟩
  · exact .inl (if_neg h)

end Cases

def Op.line : Op → Line Op
  | .label l => .label l
  | op => .instr op

/-- One step of the stack machine in this code. -/
abbrev stackStep (whole : List Op) : Point StackState → Next (Point StackState) (Outcome StackStop) :=
  stepLine Op.exec (whole.map Op.line)

/-- The labels of the code differ, and every failure that an operation may run into has a handler
that aborts with its code. -/
structure Linked (whole : List Op) : Prop where
  distinct : Distinct (whole.map Op.line)
  handlers : ∀ op ∈ whole, ∀ kind ∈ op.trapKinds, ∃ line code,
    whole[line]? = some (.label (.trap kind)) ∧ whole[line + 1]? = some (.trap code) ∧
      trapCode? kind = some code

section Steps

variable {whole : List Op} {line : Nat} {s s' : StackState} {op : Op}

theorem getElem?_line (h : whole[line]? = some op) :
    (whole.map Op.line)[line]? = some op.line := by
  rw [List.getElem?_map, h]
  rfl

/-- A step is what the operation does. -/
theorem stackStep_eq (h : whole[line]? = some op) :
    stackStep whole ⟨line, s⟩ = (op.exec s).follow (whole.map Op.line) line := by
  have hline := getElem?_line h
  cases op with
  | label l => exact step_label hline
  | _ => exact step_instr hline

theorem stackStep_next (h : whole[line]? = some op) (hexec : op.exec s = .next s') :
    stackStep whole ⟨line, s⟩ = .go ⟨line + 1, s'⟩ := by
  rw [stackStep_eq h, hexec]
  rfl

theorem stackStep_jump {target : Label} {k : Nat} (hlinked : Linked whole)
    (h : whole[line]? = some op) (hexec : op.exec s = .jump target s')
    (hk : whole[k]? = some (.label target)) : stackStep whole ⟨line, s⟩ = .go ⟨k, s'⟩ := by
  have hresolve := resolve_of_distinct hlinked.distinct (getElem?_line hk)
  rw [stackStep_eq h, hexec]
  simp only [Effect.follow, hresolve]

theorem stackStep_stop {o : StackStop} (h : whole[line]? = some op) (hexec : op.exec s = .stop o) :
    stackStep whole ⟨line, s⟩ = .halt (.stopped line o) := by
  rw [stackStep_eq h, hexec]
  rfl

end Steps

end Assembly

end Imp32
