import Imp32.Assembly.Listing

/-!
# AArch64

The result and the left operand are in `w0`, the right operand in `w1`, the product of a power in
`w2`; `x9` is for scratch and `x19` holds the address of the slots. A register of 64 bits holds a
value in its low half, and its high half is zero; an unassigned slot has all bits set.
-/

namespace Imp32.Assembly.Arm64

/-- The registers in use. -/
inductive Reg where
  | r0 | r1 | r2 | r9 | r19
  /-- The frame pointer. -/
  | r29
  /-- The return address. -/
  | r30
  | sp
  deriving DecidableEq, Repr

/-- The name of all 64 bits. -/
def Reg.x : Reg → String
  | r0 => "x0" | r1 => "x1" | r2 => "x2" | r9 => "x9" | r19 => "x19"
  | r29 => "x29" | r30 => "x30" | sp => "sp"

/-- The name of the low 32 bits. -/
def Reg.w : Reg → String
  | r0 => "w0" | r1 => "w1" | r2 => "w2" | r9 => "w9" | r19 => "w19"
  | r29 => "w29" | r30 => "w30" | sp => "wsp"

/-- A condition on the flags. -/
inductive Cond where
  | eq | ne | gt | ge | lt | le
  deriving DecidableEq, Repr

def Cond.text : Cond → String
  | eq => "eq" | ne => "ne" | gt => "gt" | ge => "ge" | lt => "lt" | le => "le"

/-- The 32-bit operations on two registers. -/
inductive Arith where
  | add | sub | mul | sdiv
  deriving DecidableEq, Repr

def Arith.text : Arith → String
  | add => "add" | sub => "sub" | mul => "mul" | sdiv => "sdiv"

/-- The instructions in use. `X` works on 64 bits and `W` on 32; a push moves the stack pointer
down before it stores, and a pop moves it up after it has loaded. -/
inductive Instr where
  | pushPair (a b : Reg)
  | popPair (a b : Reg)
  | push (r : Reg)
  | pop (r : Reg)
  | storeTop (r : Reg)
  | store (r base : Reg) (offset : Int)
  | load (r base : Reg) (offset : Int)
  | moveX (dst src : Reg)
  | moveW (dst src : Reg)
  | moveImmX (dst : Reg) (n : Int)
  | moveImmW (dst : Reg) (n : Nat)
  /-- Set the low half, and the rest to zero. -/
  | moveLow (dst : Reg) (n : Nat)
  /-- Set the high half, and keep the low one. -/
  | moveHigh (dst : Reg) (n : Nat)
  | subImmX (dst src : Reg) (n : Int)
  | subX (dst a b : Reg)
  | shiftRightX (dst src : Reg) (n : Nat)
  | arithW (op : Arith) (dst a b : Reg)
  | negW (dst src : Reg)
  /-- Subtract, and set the flags. -/
  | subsImmW (dst src : Reg) (n : Nat)
  | compareW (a b : Reg)
  | compareImmW (a : Reg) (n : Nat)
  | setW (dst : Reg) (cond : Cond)
  | jump (target : Label)
  | jumpIf (cond : Cond) (target : Label)
  | jumpIfZeroW (r : Reg) (target : Label)
  | jumpIfNonzeroX (r : Reg) (target : Label)
  /-- Jump if a bit is set. -/
  | jumpIfBitW (r : Reg) (bit : Nat) (target : Label)
  | ret
  | brk (code : Int)
  deriving DecidableEq, Repr

/-- The instruction as it is written. -/
def Instr.text : Instr → String
  | pushPair a b => s!"stp {a.x}, {b.x}, [sp, #-16]!"
  | popPair a b => s!"ldp {a.x}, {b.x}, [sp], #16"
  | push r => s!"str {r.x}, [sp, #-16]!"
  | pop r => s!"ldr {r.x}, [sp], #16"
  | storeTop r => s!"str {r.x}, [sp]"
  | store r base offset => s!"str {r.x}, [{base.x}, #{offset}]"
  | load r base offset => s!"ldr {r.x}, [{base.x}, #{offset}]"
  | moveX dst src => s!"mov {dst.x}, {src.x}"
  | moveW dst src => s!"mov {dst.w}, {src.w}"
  | moveImmX dst n => s!"mov {dst.x}, #{n}"
  | moveImmW dst n => s!"mov {dst.w}, #{n}"
  | moveLow dst n => s!"movz {dst.w}, #{n}"
  | moveHigh dst n => s!"movk {dst.w}, #{n}, lsl #16"
  | subImmX dst src n => s!"sub {dst.x}, {src.x}, #{n}"
  | subX dst a b => s!"sub {dst.x}, {a.x}, {b.x}"
  | shiftRightX dst src n => s!"lsr {dst.x}, {src.x}, #{n}"
  | arithW op dst a b => s!"{op.text} {dst.w}, {a.w}, {b.w}"
  | negW dst src => s!"neg {dst.w}, {src.w}"
  | subsImmW dst src n => s!"subs {dst.w}, {src.w}, #{n}"
  | compareW a b => s!"cmp {a.w}, {b.w}"
  | compareImmW a n => s!"cmp {a.w}, #{n}"
  | setW dst cond => s!"cset {dst.w}, {cond.text}"
  | jump target => s!"b {target.text}"
  | jumpIf cond target => s!"b.{cond.text} {target.text}"
  | jumpIfZeroW r target => s!"cbz {r.w}, {target.text}"
  | jumpIfNonzeroX r target => s!"cbnz {r.x}, {target.text}"
  | jumpIfBitW r bit target => s!"tbnz {r.w}, #{bit}, {target.text}"
  | ret => "ret"
  | brk code => s!"brk #{code}"

def commentSign : String := "//"

/-- Set a register to a 32-bit number, by halves if it has more than 16 bits. -/
def moveBits (dst : Reg) (n : Nat) : List Instr :=
  if n ≤ 0xFFFF then [.moveImmW dst n]
  else [.moveLow dst (n % 0x10000), .moveHigh dst (n / 0x10000)]

/-- Move the stack pointer down. The amount of one instruction has twelve bits. -/
def reserve (amount : Int) : List Instr :=
  if amount = 0 then []
  else if amount ≤ 4095 then [.subImmX .sp .sp amount]
  else moveBits .r9 (bits amount) ++ [.subX .sp .sp .r9]

/-- Mark every slot as unassigned. -/
def clearSlots (slots : Int) : List Instr :=
  if slots = 0 then []
  else .moveImmX .r9 (-1) :: (List.range slots.toNat).map fun slot => .store .r9 .r19 (slot * 8 : Nat)

/-- The instruction of an arithmetic operator. -/
def arith? : BinaryOp → Option Arith
  | .add => some .add
  | .sub => some .sub
  | .mul => some .mul
  | .div => some .sdiv
  | _ => none

/-- The condition of a comparison. -/
def cond? : BinaryOp → Option Cond
  | .eq => some .eq
  | .ne => some .ne
  | .gt => some .gt
  | .ge => some .ge
  | .lt => some .lt
  | .le => some .le
  | _ => none

/-- The stems of the labels inside an expansion. -/
def scratch : Op → List String
  | .pow => ["pow_loop", "pow_end"]
  | _ => []

/-- Multiply by the left operand as often as the right one says. -/
def expandPow (loop done : Label) : List (Line Instr) :=
  [.instr (.jumpIfBitW .r1 31 (.trap "neg_exp")),
    .instr (.moveImmW .r2 1),
    .instr (.jumpIfZeroW .r1 done),
    .label loop,
    .instr (.arithW .mul .r2 .r2 .r0),
    .instr (.subsImmW .r1 .r1 1),
    .instr (.jumpIf .ne loop),
    .label done,
    .instr (.moveW .r0 .r2)]

/-- The lines of an operation. -/
def expand (step : Step) : List (Line Instr) :=
  match step.op with
  | .textSection => [.directive ".text", .directive ".p2align 2"]
  | .global name => [.directive s!".globl {name}"]
  | .prologue name slots =>
    .label (.named name) ::
      (([.pushPair .r29 .r30, .moveX .r29 .sp, .push .r19] : List Instr) ++
        reserve (frameSize slots) ++ .moveX .r19 .sp :: clearSlots slots).map .instr
  | .epilogue =>
    [.instr (.load .r19 .r29 (-16)), .instr (.moveX .sp .r29), .instr (.popPair .r29 .r30),
      .instr .ret]
  | .pushImm n => (moveBits .r0 (bits n)).map .instr ++ [.instr (.push .r0)]
  | .pushResult => [.instr (.push .r0)]
  | .popResult => [.instr (.pop .r0)]
  | .popOperands => [.instr (.pop .r1), .instr (.pop .r0)]
  | .storeTop => [.instr (.storeTop .r0)]
  | .loadZero => [.instr (.moveImmW .r0 0)]
  | .loadVar slot =>
    [.instr (.load .r0 .r19 (slot * 8)), .instr (.shiftRightX .r9 .r0 32),
      .instr (.jumpIfNonzeroX .r9 (.trap "unbound"))]
  | .storeVar slot => [.instr (.store .r0 .r19 (slot * 8))]
  | .arith op =>
    match arith? op with
    | none => []
    | some .sdiv =>
      [.instr (.jumpIfZeroW .r1 (.trap "div_zero")), .instr (.arithW .sdiv .r0 .r0 .r1)]
    | some a => [.instr (.arithW a .r0 .r0 .r1)]
  | .compare op =>
    .instr (.compareW .r0 .r1) :: ((cond? op).toList.map fun cond => .instr (.setW .r0 cond))
  | .pow =>
    match step.scratch with
    | [loop, done] => expandPow loop done
    | _ => []
  | .negate => [.instr (.negW .r0 .r0)]
  | .branch target => [.instr (.jump target)]
  | .branchIfNotPositive target => [.instr (.compareImmW .r0 0), .instr (.jumpIf .le target)]
  | .label l => [.label l]
  | .trap code => [.instr (.brk code)]
  | .comment text => [.comment commentSign text]

/-- Why an operation's expansion is not complete, if it is not. -/
def refusal? : Op → Option EmitError
  | .arith op => if (arith? op).isNone then some (.noInstruction op) else none
  | .compare op => if (cond? op).isNone then some (.noInstruction op) else none
  | _ => none

end Imp32.Assembly.Arm64
