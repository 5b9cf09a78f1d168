import Imp32.Program
import Imp32.Text.Decimal

/-!
# Canonical layout

A program is written with a statement on a line, four spaces for each level of nesting and only
those parentheses without which it would be read as another program: around an operator that binds
less tightly than its place asks for, and around a negation on the left of a power, which would
otherwise be taken into the negation.

An integer is written with all of its digits. The limit on them (`Scanner.maxDigits`) is one on
reading alone: a literal that has been read has ten digits at most, and a value that is longer than
the limit, which only a program that was not read can hold, is written like any other.
-/

namespace Imp32

def chars (text : String) : List Char := text.toList

def parenthesizeIf (need : Bool) (cs : List Char) : List Char :=
  if need then '(' :: (cs ++ [')']) else cs

/-- An expression where operators have to bind at least as tightly as `least`. A negation begins
with its sign and so can stand wherever no power would follow it. -/
def Expr.layout : (least : Nat) → Expr → List Char
  | _, .value n _ => Text.decimal n
  | _, .var name _ => chars name
  | least, .neg a _ =>
    parenthesizeIf (Precedence.power < least) ('-' :: a.layout Precedence.unary)
  | least, .binary a op b _ =>
    parenthesizeIf (op.precedence < least)
      (a.layout op.leftOperand ++ ' ' :: (chars op.symbol ++ ' ' :: b.layout op.rightOperand))

def Expr.print (e : Expr) : String :=
  String.ofList (e.layout Precedence.lowest)

def clauseLayout (e : Option Expr) : List Char :=
  match e with
  | some e => e.layout Precedence.lowest
  | none => []

/-- A line one level deeper; an empty line stays empty. -/
def indentLine (line : List Char) : List Char :=
  if line.isEmpty then line else List.replicate 4 ' ' ++ line

/-- A block behind its heading: its statements one level deeper, between braces. -/
def blockLines (heading : List Char) (body : List (List Char)) : List (List Char) :=
  if body.isEmpty then [heading ++ ['\x7b', '\x7d']]
  else (heading ++ ['\x7b']) :: (body.map indentLine ++ [['\x7d']])

def conditionHeading (keyword : String) (cond : Expr) : List Char :=
  chars keyword ++ chars " (" ++ cond.layout Precedence.lowest ++ chars ") "

def forHeading (init cond update : Option Expr) : List Char :=
  chars "for (" ++ clauseLayout init ++ chars "; " ++ clauseLayout cond ++ chars "; " ++
    clauseLayout update ++ chars ") "

mutual

/-- The lines of a statement. -/
def Stmt.lines : Stmt → List (List Char)
  | .expr e _ => [e.layout Precedence.lowest ++ [';']]
  | .block body _ => blockLines [] (statementLines body)
  | .ifThen cond body _ => blockLines (conditionHeading "if" cond) (statementLines body)
  | .whileLoop cond body _ => blockLines (conditionHeading "while" cond) (statementLines body)
  | .forLoop init cond update body _ =>
    blockLines (forHeading init cond update) (statementLines body)

def statementLines : Program → List (List Char)
  | [] => []
  | s :: rest => s.lines ++ statementLines rest

end

/-- A program in canonical layout, each line ended by a line feed. -/
def Program.print (p : Program) : String :=
  String.ofList ((statementLines p).flatMap (· ++ ['\n']))

end Imp32
