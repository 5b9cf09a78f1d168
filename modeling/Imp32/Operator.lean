/-!
# Operators

The binary operators, with how tightly each binds and to which side it associates. A higher
precedence binds tighter. The unary minus stands between multiplication and power.
-/

namespace Imp32

/-- A binary operator. Assignment is one of them. -/
inductive BinaryOp where
  | add | sub | mul | div | pow
  | eq | ne | gt | ge | lt | le
  | assign
  deriving DecidableEq, Repr

namespace Precedence

/-- Below every operator. -/
def lowest : Nat := 0

def unary : Nat := 5

/-- Of the power, which binds tightest. -/
def power : Nat := 6

end Precedence

namespace BinaryOp

def symbol : BinaryOp → String
  | add => "+" | sub => "-" | mul => "*" | div => "/" | pow => "^"
  | eq => "==" | ne => "!=" | gt => ">" | ge => ">=" | lt => "<" | le => "<="
  | assign => "="

/-- The operator's name in listings. -/
def name : BinaryOp → String
  | add => "PLUS" | sub => "MINUS" | mul => "MUL" | div => "DIV" | pow => "POW"
  | eq => "EQ" | ne => "NEQ" | gt => "GT" | ge => "GT_EQ" | lt => "LT" | le => "LT_EQ"
  | assign => "ASSIGN"

def all : List BinaryOp :=
  [add, sub, mul, div, pow, eq, ne, gt, ge, lt, le, assign]

/-- How tightly the operator binds. -/
def precedence : BinaryOp → Nat
  | assign => 1
  | eq | ne | gt | ge | lt | le => 2
  | add | sub => 3
  | mul | div => 4
  | pow => Precedence.power

/-- Whether `a op b op c` is `a op (b op c)`. -/
def isRightAssoc : BinaryOp → Bool
  | assign | pow => true
  | _ => false

def isComparison (op : BinaryOp) : Bool :=
  op.precedence = 2

/-- The least precedence of an operator inside a right operand without parentheses. -/
def rightOperand (op : BinaryOp) : Nat :=
  if op.isRightAssoc then op.precedence else op.precedence + 1

/-- The least precedence of an operator inside a left operand without parentheses. -/
def leftOperand (op : BinaryOp) : Nat :=
  if op.isRightAssoc then op.precedence + 1 else op.precedence

def ofSymbol? (text : String) : Option BinaryOp :=
  all.find? fun op => op.symbol = text

theorem ofSymbol?_symbol (op : BinaryOp) : ofSymbol? op.symbol = some op := by
  cases op <;> decide

end BinaryOp

end Imp32
