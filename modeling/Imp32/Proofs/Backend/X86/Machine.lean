import Imp32.Assembly.X86
import Imp32.Proofs.Backend.Memory

/-!
# The x86-64 machine

What the instructions in use do. Writing the low half of a register clears its high half, and moves
leave the flags alone. A flag that an instruction leaves undefined is not known, and a jump on it has
no meaning. A division faults if the divisor is zero or the quotient is no value. Addresses are not
bounded, so there is always room below the stack pointer.
-/

namespace Imp32.Assembly.X86

/-- The registers, memory, and the flags that the conditions read, if they are known. -/
structure State where
  reg : Reg → Int
  memory : Memory
  zero : Option Bool
  sign : Option Bool
  overflow : Option Bool

/-- How the machine stops. -/
inductive Stop where
  | returned (s : State)
  /-- An undefined instruction. -/
  | aborted
  /-- A division without a quotient. -/
  | divideFault

namespace State

/-- Write all 64 bits of a register. -/
def set (s : State) (r : Reg) (n : Int) : State :=
  { s with reg := fun r' => if r' = r then n else s.reg r' }

/-- Write the low half of a register and clear the rest. -/
def setLow (s : State) (r : Reg) (n : Int) : State := s.set r (low n)

/-- Store all 64 bits of a number. -/
def store (s : State) (address n : Int) : State :=
  { s with memory := s.memory.store address n }

/-- Set the flags for a result of 32 bits, given without the overflow. -/
def flag (s : State) (exact : Int) : State :=
  { s with
    zero := some (low exact = 0)
    sign := some (Word.wrap exact < 0)
    overflow := some (¬Word.InRange exact) }

/-- Set the flags for a result of 64 bits that was shifted. -/
def flagShifted (s : State) (n : Int) : State :=
  { s with zero := some (n = 0), sign := some (0x8000000000000000 ≤ n), overflow := none }

/-- Leave the flags undefined. -/
def unflag (s : State) : State := { s with zero := none, sign := none, overflow := none }

@[simp] theorem memory_store (s : State) (a n : Int) :
    (s.store a n).memory = s.memory.store a n := rfl

end State

/-- The condition holds, if its flags are known. -/
def Cond.holds? (s : State) : Cond → Option Bool
  | .e => s.zero
  | .ne => return !(← s.zero)
  | .g => return !(← s.zero) && (← s.sign) == (← s.overflow)
  | .ge => return (← s.sign) == (← s.overflow)
  | .l => return (← s.sign) != (← s.overflow)
  | .le => return (← s.zero) || (← s.sign) != (← s.overflow)

/-- The condition of a jump holds, if its flags are known. -/
def JumpCond.holds? (s : State) : JumpCond → Option Bool
  | .z | .e => s.zero
  | .nz => return !(← s.zero)
  | .s => s.sign
  | .le => return (← s.zero) || (← s.sign) != (← s.overflow)

/-- What an instruction does that needs something known. -/
def needing {α : Type} (known : Option α) (next : α → Effect State Stop) : Effect State Stop :=
  match known with
  | some a => next a
  | none => .stuck

/-- Divide `%edx` and `%eax`, as one number with a sign, by a number. -/
def State.divide (s : State) (divisor : Int) : Effect State Stop :=
  let dividend := Word.wrap (s.reg .d) * 0x100000000 + low (s.reg .a)
  let quotient := dividend.tdiv divisor
  if divisor = 0 ∨ ¬Word.InRange quotient then .stop .divideFault
  else .next ((s.unflag.setLow .a quotient).setLow .d (dividend.tmod divisor))

/-- What an instruction does. -/
def Instr.exec (i : Instr) (s : State) : Effect State Stop :=
  match i with
  | push r =>
    let sp := s.reg .sp - 8
    .next ((s.store sp (s.reg r)).set .sp sp)
  | pop r =>
    let sp := s.reg .sp
    needing (s.memory sp) fun n => .next ((s.set .sp (sp + 8)).set r n)
  | moveQ src dst => .next (s.set dst (s.reg src))
  | moveL src dst => .next (s.setLow dst (s.reg src))
  | moveImmL n dst => .next (s.setLow dst n)
  | load offset base dst => needing (s.memory (s.reg base + offset)) fun n => .next (s.set dst n)
  | store src offset base => .next (s.store (s.reg base + offset) (s.reg src))
  | storeImm n offset base =>
    .next (s.store (s.reg base + offset) (n % 0x10000000000000000))
  -- The flags of a sum or difference of addresses are not known.
  | addImmQ n dst => .next (s.unflag.set dst (s.reg dst + n))
  | subImmQ n dst => .next (s.unflag.set dst (s.reg dst - n))
  | shiftRightQ n dst =>
    let m := s.reg dst
    -- An address is no number of 64 bits.
    if 0 ≤ m ∧ m < 0x10000000000000000 then
      .next ((s.set dst (m >>> n)).flagShifted (m >>> n))
    else .stuck
  | arithL .add src dst =>
    .next ((s.flag (Word.wrap (s.reg dst) + Word.wrap (s.reg src))).setLow dst
      (s.reg dst + s.reg src))
  | arithL .sub src dst =>
    .next ((s.flag (Word.wrap (s.reg dst) - Word.wrap (s.reg src))).setLow dst
      (s.reg dst - s.reg src))
  | arithL .imul src dst => .next (s.unflag.setLow dst (s.reg dst * s.reg src))
  | subImmL n dst =>
    .next ((s.flag (Word.wrap (s.reg dst) - Word.wrap n)).setLow dst (s.reg dst - n))
  | negL dst => .next ((s.flag (-Word.wrap (s.reg dst))).setLow dst (-s.reg dst))
  | testL r r' => .next (s.flag (Word.wrap (bits (s.reg r) &&& bits (s.reg r') : Nat)))
  | compareL src dst => .next (s.flag (Word.wrap (s.reg dst) - Word.wrap (s.reg src)))
  | compareImmL n dst => .next (s.flag (Word.wrap (s.reg dst) - Word.wrap n))
  | extendSign => .next (s.setLow .d (if Word.wrap (s.reg .a) < 0 then -1 else 0))
  | divideL r => s.divide (Word.wrap (s.reg r))
  | setByte cond => needing (cond.holds? s) fun holds =>
    .next (s.set .a (s.reg .a - s.reg .a % 0x100 + if holds then 1 else 0))
  | widenByte => .next (s.setLow .a (s.reg .a % 0x100))
  | jump target => .jump target s
  | jumpIf cond target => needing (cond.holds? s) fun holds =>
    if holds then .jump target s else .next s
  | ret => .stop (.returned s)
  | undefined => .stop .aborted

/-- The operands of the instruction fit its encoding: displacements and immediate operands have 32
bits, with a sign where 64 bits are meant. Branches may lead anywhere. -/
def Instr.encodable : Instr → Bool
  | moveImmL n _ => n < 0x100000000
  | load offset _ _ | store _ offset _ => Word.InRange offset
  | storeImm n offset _ => Word.InRange n ∧ Word.InRange offset
  | addImmQ n _ => Word.InRange n
  | subImmQ n _ | compareImmL n _ => Word.InRange n
  | shiftRightQ n _ => n < 64
  | subImmL n _ => n < 0x100000000
  | _ => true

end Imp32.Assembly.X86
