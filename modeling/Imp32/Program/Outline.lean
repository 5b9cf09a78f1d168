import Imp32.Program
import Imp32.Text.Decimal
import Imp32.Text.Quoted

/-!
# Outlines

An outline shows the tree of a program, a node or a field on a line, two spaces deeper than the
node that it belongs to. A field that holds a node, or a list of nodes, has them below it, an empty
list is written as brackets, and an absent clause is left out. As in a layout, an integer is written
with all of its digits, even if it has more than any literal that can be read.
-/

namespace Imp32

/-- The line of a node `depth` levels deep. Above the first level there is no indentation. -/
def outlineLine (depth : Int) (text : String) : String :=
  String.ofList (List.replicate (2 * depth).toNat ' ') ++ text

/-- The line of a field of a node `depth` levels deep. -/
def fieldLine (depth : Int) (text : String) : String :=
  outlineLine depth ("  " ++ text)

/-- A field that holds nodes: its name above them. -/
def outlineField (depth : Int) (field : String) (nodes : List String) : List String :=
  if nodes.isEmpty then [fieldLine depth (field ++ ": []")]
  else fieldLine depth (field ++ ":") :: nodes

/-- The outline of an expression. -/
def Expr.outline (depth : Int) : Expr → List String
  | .value n _ =>
    [outlineLine depth "Value", fieldLine depth ("value: " ++ String.ofList (Text.decimal n))]
  | .var name _ =>
    [outlineLine depth "Var",
      fieldLine depth ("name: " ++ String.ofList (Text.quoted name.toList))]
  | .neg a _ =>
    outlineLine depth "Unary" :: fieldLine depth "op: -" ::
      outlineField depth "operand" (a.outline (depth + 2))
  | .binary a op b _ =>
    outlineLine depth "Binary" ::
      (outlineField depth "lhs" (a.outline (depth + 2)) ++
        fieldLine depth ("op: " ++ op.symbol) ::
          outlineField depth "rhs" (b.outline (depth + 2)))

def clauseOutline (depth : Int) (field : String) (e : Option Expr) : List String :=
  match e with
  | some e => outlineField depth field (e.outline (depth + 2))
  | none => []

mutual

/-- The outline of a statement. -/
def Stmt.outline (depth : Int) : Stmt → List String
  | .expr e _ =>
    outlineLine depth "ExpressionStatement" ::
      outlineField depth "expr" (e.outline (depth + 2))
  | .block body _ =>
    outlineLine depth "BlockStatement" ::
      outlineField depth "body" (statementOutlines (depth + 2) body)
  | .ifThen cond body _ =>
    outlineLine depth "If" ::
      (outlineField depth "cond" (cond.outline (depth + 2)) ++
        outlineField depth "then" (statementOutlines (depth + 2) body))
  | .whileLoop cond body _ =>
    outlineLine depth "While" ::
      (outlineField depth "cond" (cond.outline (depth + 2)) ++
        outlineField depth "body" (statementOutlines (depth + 2) body))
  | .forLoop init cond update body _ =>
    outlineLine depth "For" ::
      (clauseOutline depth "init" init ++ clauseOutline depth "cond" cond ++
        clauseOutline depth "update" update ++
        outlineField depth "body" (statementOutlines (depth + 2) body))

def statementOutlines (depth : Int) : Program → List String
  | [] => []
  | s :: rest => s.outline depth ++ statementOutlines depth rest

end

def Program.outlineLines (depth : Int) (p : Program) : List String :=
  outlineLine depth "Program" :: outlineField depth "body" (statementOutlines (depth + 2) p)

/-- The outline of a program, each line ended by a line feed. -/
def Program.outline (depth : Int) (p : Program) : String :=
  String.join ((p.outlineLines depth).map (· ++ "\n"))

end Imp32
