import Imp32.Assembly.Arm64
import Imp32.Proofs.Backend.Memory

/-!
# The AArch64 machine

What the instructions in use do. Writing the low half of a register clears its high half; a
quotient is rounded toward zero, and zero if the divisor is. Addresses are not bounded, so there is
always room below the stack pointer. `Instr.encodable` says which operands have an encoding.
-/

namespace Imp32.Assembly.Arm64

/-- The registers, memory, and the flags that the conditions read. -/
structure State where
  reg : Reg → Int
  memory : Memory
  negative : Bool
  zero : Bool
  overflow : Bool

/-- How the machine stops: with its state, or with the code of a breakpoint. -/
inductive Stop where
  | returned (s : State)
  | broken (code : Int)

namespace State

/-- Write all 64 bits of a register. -/
def set (s : State) (r : Reg) (n : Int) : State :=
  { s with reg := fun r' => if r' = r then n else s.reg r' }

/-- Write the low half of a register and clear the rest. -/
def setLow (s : State) (r : Reg) (n : Int) : State := s.set r (low n)

/-- Store all 64 bits of a number. -/
def store (s : State) (address n : Int) : State :=
  { s with memory := s.memory.store address n }

/-- Set the flags for the difference of the values of two low halves. -/
def compare (s : State) (a b : Int) : State :=
  let difference := Word.wrap a - Word.wrap b
  { s with
    negative := Word.wrap difference < 0
    zero := low difference = 0
    overflow := ¬Word.InRange difference }

variable (s : State) (r r' : Reg) (n a : Int)

@[simp] theorem reg_set : (s.set r n).reg r' = if r' = r then n else s.reg r' := rfl

@[simp] theorem memory_set : (s.set r n).memory = s.memory := rfl

@[simp] theorem memory_store : (s.store a n).memory = s.memory.store a n := rfl

/-- The last write counts. -/
theorem set_set (m : Int) : (s.set r m).set r n = s.set r n := by
  unfold set
  congr 1
  funext r'
  show (if r' = r then n else if r' = r then m else s.reg r') = if r' = r then n else s.reg r'
  by_cases h : r' = r
  · rw [if_pos h, if_pos h]
  · rw [if_neg h, if_neg h, if_neg h]

end State

/-- The condition holds. -/
def Cond.holds (s : State) : Cond → Bool
  | eq => s.zero
  | ne => !s.zero
  | gt => !s.zero && s.negative == s.overflow
  | ge => s.negative == s.overflow
  | lt => s.negative != s.overflow
  | le => s.zero || s.negative != s.overflow

/-- The result of the operation, to be taken modulo 2³². -/
def Arith.result (op : Arith) (a b : Int) : Int :=
  match op with
  | add => a + b
  | sub => a - b
  | mul => a * b
  | sdiv => if low b = 0 then 0 else (Word.wrap a).tdiv (Word.wrap b)

/-- Load all 64 bits of a register, and go on. -/
def loading (s : State) (address : Int) (next : Int → Effect State Stop) : Effect State Stop :=
  match s.memory address with
  | some n => next n
  | none => .stuck

/-- What an instruction does. -/
def Instr.exec (i : Instr) (s : State) : Effect State Stop :=
  match i with
  | pushPair a b =>
    let sp := s.reg .sp - 16
    .next (((s.store sp (s.reg a)).store (sp + 8) (s.reg b)).set .sp sp)
  | popPair a b =>
    let sp := s.reg .sp
    loading s sp fun m => loading s (sp + 8) fun n =>
      .next (((s.set a m).set b n).set .sp (sp + 16))
  | push r =>
    let sp := s.reg .sp - 16
    .next ((s.store sp (s.reg r)).set .sp sp)
  | pop r =>
    let sp := s.reg .sp
    loading s sp fun n => .next ((s.set r n).set .sp (sp + 16))
  | storeTop r => .next (s.store (s.reg .sp) (s.reg r))
  | store r base offset => .next (s.store (s.reg base + offset) (s.reg r))
  | load r base offset => loading s (s.reg base + offset) fun n => .next (s.set r n)
  | moveX dst src => .next (s.set dst (s.reg src))
  | moveW dst src => .next (s.setLow dst (s.reg src))
  | moveImmX dst n => .next (s.set dst (n % 0x10000000000000000))
  | moveImmW dst n => .next (s.setLow dst n)
  | moveLow dst n => .next (s.setLow dst n)
  | moveHigh dst n => .next (s.setLow dst (n * 0x10000 + s.reg dst % 0x10000))
  | subImmX dst src n => .next (s.set dst (s.reg src - n))
  | subX dst a b => .next (s.set dst (s.reg a - s.reg b))
  | shiftRightX dst src n =>
    let m := s.reg src
    -- An address is no number of 64 bits.
    if 0 ≤ m ∧ m < 0x10000000000000000 then .next (s.set dst (m >>> n)) else .stuck
  | arithW op dst a b => .next (s.setLow dst (op.result (s.reg a) (s.reg b)))
  | negW dst src => .next (s.setLow dst (-s.reg src))
  | subsImmW dst src n => .next ((s.compare (s.reg src) n).setLow dst (s.reg src - n))
  | compareW a b => .next (s.compare (s.reg a) (s.reg b))
  | compareImmW a n => .next (s.compare (s.reg a) n)
  | setW dst cond => .next (s.setLow dst (if cond.holds s then 1 else 0))
  | jump target => .jump target s
  | jumpIf cond target => if cond.holds s then .jump target s else .next s
  | jumpIfZeroW r target => if low (s.reg r) = 0 then .jump target s else .next s
  | jumpIfNonzeroX r target => if s.reg r ≠ 0 then .jump target s else .next s
  | jumpIfBitW r bit target =>
    if (bits (s.reg r)).testBit bit then .jump target s else .next s
  | ret => .stop (.returned s)
  | brk code => .stop (.broken code)

/-- The operands of the instruction fit its encoding. Branches may lead anywhere. -/
def Instr.encodable : Instr → Bool
  | store _ _ offset | load _ _ offset =>
    (0 ≤ offset ∧ offset ≤ 32760 ∧ offset % 8 = 0) ∨ (-256 ≤ offset ∧ offset ≤ 255)
  | moveImmX _ n => -0x10000 ≤ n ∧ n ≤ 0xFFFF
  | moveImmW _ n | moveLow _ n | moveHigh _ n => n ≤ 0xFFFF
  | subImmX _ _ n => 0 ≤ n ∧ n ≤ 4095
  | shiftRightX _ _ n => n < 64
  | subsImmW _ _ n | compareImmW _ n => n ≤ 4095
  | jumpIfBitW _ bit _ => bit < 32
  | brk code => 0 ≤ code ∧ code ≤ 0xFFFF
  | _ => true

end Imp32.Assembly.Arm64
