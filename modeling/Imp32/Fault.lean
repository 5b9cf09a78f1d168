import Imp32.Text.Quoted
import Imp32.Token

/-!
# Faults

What can go wrong in each phase is a cause: `LexError`, `ParseError` and `EvalError` hold the
offending text, token or value. A `Fault` is what is shown of a cause, its code, message and
place. Three causes are not faults of the program and have none: a literal longer than the
number reader takes, a nesting limit exceeded where there is no token to point at, and an
assignment, in a tree built by hand, whose target is no variable.
-/

namespace Imp32

/-- A kind of fault. The first of each family stands for a fault that has no kind of its own. -/
inductive FaultKind where
  | general
  | lexical | invalidToken | literalOverflow
  | parse | unmatchedLeftParen | unexpectedToken | invalidAssignmentTarget | unexpectedEnd
  | nestingTooDeep
  | evaluation | divisionByZero | unboundVariable | negativeExponent
  deriving DecidableEq, Repr

/-- The code of a kind of fault. The first digit is its family. -/
def FaultKind.code : FaultKind → String
  | general => "E000"
  | lexical => "E100"
  | invalidToken => "E101"
  | literalOverflow => "E102"
  | parse => "E200"
  | unmatchedLeftParen => "E201"
  | unexpectedToken => "E202"
  | invalidAssignmentTarget => "E203"
  | unexpectedEnd => "E204"
  | nestingTooDeep => "E205"
  | evaluation => "E300"
  | divisionByZero => "E301"
  | unboundVariable => "E302"
  | negativeExponent => "E303"

/-- The kind that a kind is a special case of. -/
def FaultKind.parent? : FaultKind → Option FaultKind
  | general => none
  | lexical | parse | evaluation => some general
  | invalidToken | literalOverflow => some lexical
  | unmatchedLeftParen | unexpectedToken | invalidAssignmentTarget | unexpectedEnd
  | nestingTooDeep => some parse
  | divisionByZero | unboundVariable | negativeExponent => some evaluation

/-- A kind and those that it is a special case of, the nearest first. -/
def FaultKind.lineage (kind : FaultKind) : List FaultKind :=
  kind :: kind.parent?.toList.flatMap fun parent => parent :: parent.parent?.toList

/-- What is shown of an error: without a span it has no place in the text. -/
structure Fault where
  kind : FaultKind
  message : String
  span : Option Span
  deriving DecidableEq, Repr

def Fault.code (fault : Fault) : String :=
  fault.kind.code

/-- Why a text is not a list of tokens. -/
inductive LexError where
  /-- The text begins no token. -/
  | invalidToken (text : String) (span : Span)
  /-- The literal is greater than every value. -/
  | literalOverflow (digits : String) (span : Span)
  /-- The literal has more digits than the number reader takes. -/
  | digitLimit (digits : Nat)
  deriving DecidableEq, Repr

/-- What is shown of a lexical error. -/
def LexError.fault? : LexError → Option Fault
  | invalidToken text span =>
    some ⟨.invalidToken, s!"invalid token {String.ofList (Text.quoted text.toList)}", some span⟩
  | literalOverflow digits span =>
    some ⟨.literalOverflow, s!"integer literal {digits} does not fit in a 32-bit signed integer",
      some span⟩
  | digitLimit _ => none

/-- Why a list of tokens is not a program. -/
inductive ParseError where
  /-- The parenthesis is not closed where its expression ends. -/
  | unmatchedLeftParen (token : Token)
  /-- The token cannot stand where it stands. -/
  | unexpectedToken (token : Token)
  /-- What stands before the assignment sign is not a variable. -/
  | invalidAssignmentTarget (token : Token)
  /-- The tokens end inside a statement. -/
  | unexpectedEnd
  /-- The token is nested deeper than the limit. -/
  | nestingTooDeep (token : Token) (limit : Int)
  /-- The limit is exceeded with no token at all. -/
  | nestingTooDeepAtNothing
  deriving DecidableEq, Repr

def Fault.nestingTooDeep (token : Token) (limit : String) : Fault :=
  ⟨.nestingTooDeep, s!"nesting exceeds the maximum depth of {limit}", some token.span⟩

/-- What is shown of a parse error. -/
def ParseError.fault? : ParseError → Option Fault
  | unmatchedLeftParen token =>
    some ⟨.unmatchedLeftParen, "unmatched left parenthesis", some token.span⟩
  | unexpectedToken token =>
    some ⟨.unexpectedToken, s!"unexpected token {token.describe}", some token.span⟩
  | invalidAssignmentTarget token =>
    some ⟨.invalidAssignmentTarget,
      "invalid assignment target; only a variable can be assigned", some token.span⟩
  | unexpectedEnd => some ⟨.unexpectedEnd, "unexpected end of input", none⟩
  | nestingTooDeep token limit => some (Fault.nestingTooDeep token (toString limit))
  | nestingTooDeepAtNothing => none

/-- Why a program has no value. -/
inductive EvalError where
  | divisionByZero (span : Option Span)
  | unboundVariable (name : String) (span : Option Span)
  | negativeExponent (exponent : Int) (span : Option Span)
  /-- An assignment's left side is not a variable. -/
  | targetNotVariable
  deriving DecidableEq, Repr

/-- What is shown of an evaluation error. -/
def EvalError.fault? : EvalError → Option Fault
  | divisionByZero span => some ⟨.divisionByZero, "division by zero", span⟩
  | unboundVariable name span => some ⟨.unboundVariable, s!"variable '{name}' is not bound", span⟩
  | negativeExponent exponent span =>
    some ⟨.negativeExponent, s!"negative exponent {exponent}", span⟩
  | targetNotVariable => none

/-- Why a tree built by hand cannot be checked or compiled. -/
inductive TargetError where
  /-- An assignment's left side is not a variable. -/
  | notVariable
  deriving DecidableEq, Repr

/-- An error of any phase. -/
inductive Failure where
  | lex (error : LexError)
  | parse (error : ParseError)
  | target (error : TargetError)
  | eval (error : EvalError)
  deriving DecidableEq, Repr

/-- What is shown of an error. -/
def Failure.fault? : Failure → Option Fault
  | lex error => error.fault?
  | parse error => error.fault?
  | target _ => none
  | eval error => error.fault?

end Imp32
