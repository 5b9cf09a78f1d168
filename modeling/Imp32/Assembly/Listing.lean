import Imp32.Operator

/-!
# Listings

A listing is assembly text as a list of lines: labels at the margin, and instructions, directives
and comments behind it. Code is written for a machine with a stack of operands and a result
register, and `Op` is an operation of that machine. Each target expands an operation into lines of
its own instructions; some expansions jump inside themselves and need `scratch` labels for it.
-/

namespace Imp32.Assembly

/-- A name for a place in the code. -/
inductive Label where
  /-- A label of the generator's own, made unique by a number. -/
  | fresh (stem : String) (number : Nat)
  /-- The handler of a kind of failure. -/
  | trap (kind : String)
  /-- A name from outside. -/
  | named (name : String)
  deriving DecidableEq, Repr

def Label.text : Label → String
  | fresh stem number => s!".L{stem}{number}"
  | trap kind => s!".Ltrap_{kind}"
  | named name => name

/-- A line of a listing over some instructions. -/
inductive Line (Instr : Type) where
  | label (label : Label)
  | instr (instr : Instr)
  | directive (text : String)
  | comment (sign text : String)
  deriving DecidableEq, Repr

/-- The margin of everything but labels. -/
def margin : String := "    "

/-- The line as it is written. -/
def Line.text {Instr : Type} (instrText : Instr → String) : Line Instr → String
  | label l => l.text ++ ":"
  | instr i => margin ++ instrText i
  | directive text => margin ++ text
  | comment sign text => margin ++ sign ++ " " ++ text

/-- An operation of the stack machine. Variables live in numbered slots. -/
inductive Op where
  /-- Start the section of the code. -/
  | textSection
  /-- Make a name visible from outside. -/
  | global (name : String)
  /-- Enter a function: mark all its slots as unassigned. -/
  | prologue (name : String) (slots : Int)
  /-- Leave the function with the result. -/
  | epilogue
  /-- Push a number. -/
  | pushImm (n : Int)
  /-- Push the result. -/
  | pushResult
  /-- Pop the result. -/
  | popResult
  /-- Pop the right operand and then, as the result, the left one. -/
  | popOperands
  /-- Overwrite the top of the stack with the result. -/
  | storeTop
  /-- Let the result be zero. -/
  | loadZero
  /-- Load the result from a slot, which has to be assigned. -/
  | loadVar (slot : Int)
  /-- Store the result into a slot. -/
  | storeVar (slot : Int)
  /-- Add, subtract, multiply or divide. -/
  | arith (op : BinaryOp)
  /-- Compare the operands; the result is 1 or 0. -/
  | compare (op : BinaryOp)
  /-- Raise the left operand to the right one. -/
  | pow
  /-- Negate the result. -/
  | negate
  | branch (target : Label)
  /-- Branch unless the result is greater than zero. -/
  | branchIfNotPositive (target : Label)
  | label (label : Label)
  /-- Abort with a code. -/
  | trap (code : Int)
  | comment (text : String)
  deriving DecidableEq, Repr

/-- The failures that an operation may run into. -/
def Op.trapKinds : Op → List String
  | loadVar _ => ["unbound"]
  | arith .div => ["div_zero"]
  | pow => ["neg_exp"]
  | _ => []

/-- The code that a failure aborts with. -/
def trapCode? : String → Option Int
  | "div_zero" => some 1
  | "unbound" => some 2
  | "neg_exp" => some 3
  | _ => none

/-- An operation with the labels for its inner jumps. -/
structure Step where
  op : Op
  scratch : List Label
  deriving DecidableEq, Repr

/-- Why an operation has no expansion. -/
inductive EmitError where
  /-- The target has no instruction for the operator. -/
  | noInstruction (op : BinaryOp)
  /-- The operator is refused as not arithmetic. -/
  | notArithmetic (op : BinaryOp)
  /-- The kind of failure has no code. -/
  | unknownTrap (kind : String)
  deriving DecidableEq, Repr

/-- The bytes of a frame that holds this number of slots, in whole pairs. -/
def frameSize (slots : Int) : Int :=
  (slots * 8 + 15) / 16 * 16

/-- A number as the 32 bits of a register. -/
def bits (n : Int) : Nat :=
  (n % 0x100000000).toNat

end Imp32.Assembly
