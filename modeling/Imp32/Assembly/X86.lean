import Imp32.Assembly.Listing

/-!
# x86-64

The System V convention, written in the order source, destination. The result and the left operand
are in `%eax` and the right operand in `%ecx`; `%edx` holds the product of a power and the high half
of a dividend. The slots are below the frame pointer. A register of 64 bits holds a value in its
low half, and its high half is zero; an unassigned slot has all bits set.
-/

namespace Imp32.Assembly.X86

/-- The registers in use. -/
inductive Reg where
  | a | c | d | bp | sp
  deriving DecidableEq, Repr

/-- The name of all 64 bits. -/
def Reg.q : Reg → String
  | a => "%rax" | c => "%rcx" | d => "%rdx" | bp => "%rbp" | sp => "%rsp"

/-- The name of the low 32 bits. -/
def Reg.l : Reg → String
  | a => "%eax" | c => "%ecx" | d => "%edx" | bp => "%ebp" | sp => "%esp"

/-- A condition on the flags after a comparison. -/
inductive Cond where
  | e | ne | g | ge | l | le
  deriving DecidableEq, Repr

def Cond.text : Cond → String
  | e => "e" | ne => "ne" | g => "g" | ge => "ge" | l => "l" | le => "le"

/-- A condition of a jump. `z` and `e` are two names of one condition. -/
inductive JumpCond where
  | z | e | nz | s | le
  deriving DecidableEq, Repr

def JumpCond.text : JumpCond → String
  | z => "z" | e => "e" | nz => "nz" | s => "s" | le => "le"

/-- The 32-bit operations on two registers. -/
inductive Arith where
  | add | sub | imul
  deriving DecidableEq, Repr

def Arith.text : Arith → String
  | add => "addl" | sub => "subl" | imul => "imull"

/-- The instructions in use. `Q` works on 64 bits and `L` on 32. -/
inductive Instr where
  | push (r : Reg)
  | pop (r : Reg)
  | moveQ (src dst : Reg)
  | moveL (src dst : Reg)
  | moveImmL (n : Nat) (dst : Reg)
  | load (offset : Int) (base dst : Reg)
  | store (src : Reg) (offset : Int) (base : Reg)
  | storeImm (n : Int) (offset : Int) (base : Reg)
  | addImmQ (n : Nat) (dst : Reg)
  | subImmQ (n : Int) (dst : Reg)
  | shiftRightQ (n : Nat) (dst : Reg)
  | arithL (op : Arith) (src dst : Reg)
  | subImmL (n : Nat) (dst : Reg)
  | negL (dst : Reg)
  | testL (r s : Reg)
  | compareL (src dst : Reg)
  | compareImmL (n : Int) (dst : Reg)
  /-- Extend the sign of `%eax` into `%edx`. -/
  | extendSign
  /-- Divide `%edx` and `%eax`, as one number, by a register. -/
  | divideL (r : Reg)
  /-- Set `%al` to 1 or 0. -/
  | setByte (cond : Cond)
  /-- Set `%eax` to `%al`. -/
  | widenByte
  | jump (target : Label)
  | jumpIf (cond : JumpCond) (target : Label)
  | ret
  /-- Abort. -/
  | undefined
  deriving DecidableEq, Repr

/-- An address behind a register. The stack pointer alone is the address of the top. -/
def address (offset : Int) (base : Reg) : String :=
  if offset = 0 ∧ base = .sp then s!"({base.q})" else s!"{offset}({base.q})"

/-- The instruction as it is written. -/
def Instr.text : Instr → String
  | push r => s!"pushq {r.q}"
  | pop r => s!"popq {r.q}"
  | moveQ src dst => s!"movq {src.q}, {dst.q}"
  | moveL src dst => s!"movl {src.l}, {dst.l}"
  | moveImmL n dst => s!"movl ${n}, {dst.l}"
  | load offset base dst => s!"movq {address offset base}, {dst.q}"
  | store src offset base => s!"movq {src.q}, {address offset base}"
  | storeImm n offset base => s!"movq ${n}, {address offset base}"
  | addImmQ n dst => s!"addq ${n}, {dst.q}"
  | subImmQ n dst => s!"subq ${n}, {dst.q}"
  | shiftRightQ n dst => s!"shrq ${n}, {dst.q}"
  | arithL op src dst => s!"{op.text} {src.l}, {dst.l}"
  | subImmL n dst => s!"subl ${n}, {dst.l}"
  | negL dst => s!"negl {dst.l}"
  | testL r s => s!"testl {r.l}, {s.l}"
  | compareL src dst => s!"cmpl {src.l}, {dst.l}"
  | compareImmL n dst => s!"cmpl ${n}, {dst.l}"
  | extendSign => "cltd"
  | divideL r => s!"idivl {r.l}"
  | setByte cond => s!"set{cond.text} %al"
  | widenByte => "movzbl %al, %eax"
  | jump target => s!"jmp {target.text}"
  | jumpIf cond target => s!"j{cond.text} {target.text}"
  | ret => "ret"
  | undefined => "ud2"

def commentSign : String := "#"

/-- Where a slot is, from the frame pointer. -/
def slotOffset (slot : Int) : Int :=
  -8 * (slot + 1)

/-- Move the stack pointer down. -/
def reserve (amount : Int) : List Instr :=
  if amount ≤ 0 then [] else [.subImmQ amount .sp]

/-- Mark every slot as unassigned. -/
def clearSlots (slots : Int) : List Instr :=
  (List.range slots.toNat).map fun (slot : Nat) => .storeImm (-1) (slotOffset slot) .bp

def pushResult : List Instr :=
  [.subImmQ 16 .sp, .store .a 0 .sp]

/-- The condition of a comparison. -/
def cond? : BinaryOp → Option Cond
  | .eq => some .e
  | .ne => some .ne
  | .gt => some .g
  | .ge => some .ge
  | .lt => some .l
  | .le => some .le
  | _ => none

/-- The stems of the labels inside an expansion. -/
def scratch : Op → List String
  | .pow => ["pow_loop", "pow_end"]
  | .arith .div => ["div_neg", "div_end"]
  | _ => []

/-- Divide. A division by -1 negates instead: the least value has no quotient by it. -/
def expandDiv (byMinusOne done : Label) : List (Line Instr) :=
  [.instr (.testL .c .c),
    .instr (.jumpIf .z (.trap "div_zero")),
    .instr (.compareImmL (-1) .c),
    .instr (.jumpIf .e byMinusOne),
    .instr .extendSign,
    .instr (.divideL .c),
    .instr (.jump done),
    .label byMinusOne,
    .instr (.negL .a),
    .label done]

/-- Multiply by the left operand as often as the right one says. Setting the product leaves the
flags of the test. -/
def expandPow (loop done : Label) : List (Line Instr) :=
  [.instr (.testL .c .c),
    .instr (.jumpIf .s (.trap "neg_exp")),
    .instr (.moveImmL 1 .d),
    .instr (.jumpIf .z done),
    .label loop,
    .instr (.arithL .imul .a .d),
    .instr (.subImmL 1 .c),
    .instr (.jumpIf .nz loop),
    .label done,
    .instr (.moveL .d .a)]

/-- The lines of an operation. -/
def expand (step : Step) : List (Line Instr) :=
  match step.op with
  | .textSection => [.directive ".text"]
  | .global name => [.directive s!".globl {name}"]
  | .prologue name slots =>
    .label (.named name) ::
      (.push .bp :: .moveQ .sp .bp :: (reserve (frameSize slots) ++ clearSlots slots)).map .instr
  | .epilogue => [.instr (.moveQ .bp .sp), .instr (.pop .bp), .instr .ret]
  | .pushImm n => .instr (.moveImmL (bits n) .a) :: pushResult.map .instr
  | .pushResult => pushResult.map .instr
  | .popResult => [.instr (.load 0 .sp .a), .instr (.addImmQ 16 .sp)]
  | .popOperands =>
    [.instr (.load 0 .sp .c), .instr (.load 16 .sp .a), .instr (.addImmQ 32 .sp)]
  | .storeTop => [.instr (.store .a 0 .sp)]
  | .loadZero => [.instr (.moveImmL 0 .a)]
  | .loadVar slot =>
    [.instr (.load (slotOffset slot) .bp .a), .instr (.moveQ .a .d), .instr (.shiftRightQ 32 .d),
      .instr (.jumpIf .nz (.trap "unbound"))]
  | .storeVar slot => [.instr (.store .a (slotOffset slot) .bp)]
  | .arith .add => [.instr (.arithL .add .c .a)]
  | .arith .sub => [.instr (.arithL .sub .c .a)]
  | .arith .mul => [.instr (.arithL .imul .c .a)]
  | .arith .div =>
    match step.scratch with
    | [byMinusOne, done] => expandDiv byMinusOne done
    | _ => []
  | .arith _ => []
  | .compare op =>
    .instr (.compareL .c .a) ::
      ((cond? op).toList.flatMap fun cond => [.instr (.setByte cond), .instr .widenByte])
  | .pow =>
    match step.scratch with
    | [loop, done] => expandPow loop done
    | _ => []
  | .negate => [.instr (.negL .a)]
  | .branch target => [.instr (.jump target)]
  | .branchIfNotPositive target => [.instr (.testL .a .a), .instr (.jumpIf .le target)]
  | .label l => [.label l]
  | .trap _ => [.instr .undefined]
  | .comment text => [.comment commentSign text]

/-- Why an operation's expansion is not complete, if it is not. -/
def refusal? : Op → Option EmitError
  | .arith op =>
    match op with
    | .add | .sub | .mul | .div => none
    | _ => some (.notArithmetic op)
  | .compare op => if (cond? op).isNone then some (.noInstruction op) else none
  | _ => none

end Imp32.Assembly.X86
