import Imp32.Fault
import Imp32.Program
import Imp32.Token.Scanner

/-!
# Reading programs from tokens

Statements are read by their first token, and expressions by precedence: an operand, then the
operators that bind at least as tightly as the place allows, each with a right operand that binds
tighter by its own rule. The first error ends the reading.

An expression, and a block, is one level deeper than what it stands in, and the number of levels
is limited. `room` is the number of levels that may still be entered; it bounds the recursion, so
that reading needs no other measure. The unread tokens bound the operators of one expression and
the statements of one block.

The level is counted in the state as well. It is restored on every way out but one: the failure to
enter a level leaves that level counted.
-/

namespace Imp32

/-- Where reading stands among the tokens. -/
structure TokenCursor where
  /-- The tokens that have not been read. -/
  rest : List Token
  /-- The last of all tokens. -/
  last : Option Token
  /-- The number of tokens that have been read. -/
  read : Nat
  /-- The levels that have been entered. -/
  depth : Nat
  /-- The greatest number of levels. -/
  limit : Int
  deriving DecidableEq, Repr

/-- An action that reads tokens. An error leaves the cursor where it came up. -/
abbrev TokenReader := EStateM ParseError TokenCursor

namespace TokenCursor

def start (tokens : List Token) (limit : Int) : TokenCursor :=
  ⟨tokens, tokens.getLast?, 0, 0, limit⟩

/-- The levels that may still be entered. -/
def room (s : TokenCursor) : Nat :=
  (s.limit - s.depth).toNat

/-- The error of entering one level too many. -/
def tooDeep (s : TokenCursor) : ParseError :=
  match s.rest.head?.or s.last with
  | some token => .nestingTooDeep token s.limit
  | none => .nestingTooDeepAtNothing

def pass (s : TokenCursor) : TokenCursor :=
  { s with rest := s.rest.tail, read := s.read + 1 }

end TokenCursor

namespace TokenReader

/-- The next token, which stays unread. -/
def peek : TokenReader (Option Token) := do
  return (← get).rest.head?

def unread : TokenReader (List Token) := do
  return (← get).rest

def pass : TokenReader Unit :=
  modify TokenCursor.pass

/-- The next token, which has to be there. -/
def current : TokenReader Token := do
  match ← peek with
  | some token => return token
  | none => throw .unexpectedEnd

/-- Pass the next token, which has to spell this lexeme. -/
def expect (lexeme : Lexeme) : TokenReader Token := do
  let token ← current
  if token.lexeme = lexeme then
    pass
    return token
  else throw (.unexpectedToken token)

/-- Fail to enter a level; it stays counted. -/
def refuse {α : Type} : TokenReader α := fun s =>
  .error s.tooDeep { s with depth := s.depth + 1 }

/-- Run an action one level deeper. -/
def deeper {α : Type} (action : TokenReader α) : TokenReader α := fun s =>
  match action { s with depth := s.depth + 1 } with
  | .ok a s' => .ok a { s' with depth := s'.depth - 1 }
  | .error e s' => .error e { s' with depth := s'.depth - 1 }

/-! ## Expressions -/

/-- An operand: a number, a variable, a negation or a parenthesis. `inner` reads an expression one
level deeper whose operators bind at least as tightly as given. -/
def operand (inner : Nat → TokenReader Expr) : TokenReader Expr := do
  let token ← current
  match token.lexeme with
  | .num n =>
    pass
    return .value n token.span
  | .ident name =>
    pass
    return .var name token.span
  | .op .sub =>
    pass
    let e ← inner Precedence.unary
    return .neg e (token.span.join e.span)
  | .leftParen =>
    pass
    let e ← inner Precedence.lowest
    match ← peek with
    | some ⟨.rightParen, _⟩ =>
      pass
      return e
    | _ => throw (.unmatchedLeftParen token)
  | _ => throw (.unexpectedToken token)

/-- Whether an operator may follow this left operand. -/
def accepts (op : BinaryOp) (lhs : Expr) : Bool :=
  match op, lhs with
  | .assign, .var _ _ => true
  | .assign, _ => false
  | _, _ => true

/-- The operators behind a left operand, from left to right, as long as they bind tightly enough.
The list counts the operators. -/
def operators (inner : Nat → TokenReader Expr) (least : Nat) :
    (count : List Token) → (lhs : Expr) → TokenReader Expr
  | [], lhs => return lhs
  | _ :: count, lhs => do
    match ← peek with
    | some ⟨.op op, span⟩ =>
      if op.precedence < least then return lhs
      pass
      if !accepts op lhs then throw (.invalidAssignmentTarget ⟨.op op, span⟩)
      let rhs ← inner op.rightOperand
      operators inner least count (.binary lhs op rhs (lhs.span.join rhs.span))
    | _ => return lhs

/-- An expression, whose operators outside parentheses bind at least as tightly as `least`. -/
def expression : (room : Nat) → (least : Nat) → TokenReader Expr
  | 0, _ => refuse
  | room + 1, least => deeper do
    let lhs ← operand (expression room)
    operators (expression room) least (← unread) lhs

/-! ## Statements -/

/-- An expression, or nothing in front of this lexeme. -/
def clause (room : Nat) (terminator : Lexeme) : TokenReader (Option Expr) := do
  match ← peek with
  | some token =>
    if token.lexeme = terminator then return none
    some <$> expression room Precedence.lowest
  | none => some <$> expression room Precedence.lowest

/-- An expression in parentheses. -/
def condition (room : Nat) : TokenReader Expr := do
  let _ ← expect .leftParen
  let e ← expression room Precedence.lowest
  let _ ← expect .rightParen
  return e

/-- A statement. `block` reads a block at the same level. -/
def statement (room : Nat) (block : TokenReader (List Stmt × Span)) : TokenReader Stmt := do
  let token ← current
  match token.lexeme with
  | .ifWord =>
    pass
    let cond ← condition room
    let (body, span) ← block
    return .ifThen cond body (token.span.join span)
  | .whileWord =>
    pass
    let cond ← condition room
    let (body, span) ← block
    return .whileLoop cond body (token.span.join span)
  | .forWord =>
    pass
    let _ ← expect .leftParen
    let init ← clause room .semicolon
    let _ ← expect .semicolon
    let cond ← clause room .semicolon
    let _ ← expect .semicolon
    let update ← clause room .rightParen
    let _ ← expect .rightParen
    let (body, span) ← block
    return .forLoop init cond update body (token.span.join span)
  | .leftBrace =>
    let (body, span) ← block
    return .block body span
  | _ =>
    let e ← expression room Precedence.lowest
    let semicolon ← expect .semicolon
    return .expr e (token.span.join semicolon.span)

/-- The statements in front of a right brace, behind those that have been read, last first. The
list counts the statements. -/
def statements (statement : TokenReader Stmt) :
    (count : List Token) → (done : List Stmt) → TokenReader (List Stmt)
  | count, done => do
    let token ← current
    if token.lexeme = .rightBrace then return done.reverse
    match count with
    | [] => return done.reverse
    | _ :: count =>
      let s ← statement
      statements statement count (s :: done)

/-- A block with its span. -/
def block : (room : Nat) → TokenReader (List Stmt × Span)
  | 0 => do
    let _ ← expect .leftBrace
    refuse
  | room + 1 => do
    let opening ← expect .leftBrace
    let body ← deeper do
      statements (statement room (block room)) (← unread) []
    let closing ← current
    pass
    return (body, opening.span.join closing.span)

/-- The statements up to the last token, behind those that have been read, last first. -/
def statementsToEnd (statement : TokenReader Stmt) :
    (count : List Token) → (done : List Stmt) → TokenReader (List Stmt)
  | count, done => do
    match ← peek with
    | none => return done.reverse
    | some _ =>
      match count with
      | [] => return done.reverse
      | _ :: count =>
        let s ← statement
        statementsToEnd statement count (s :: done)

def program : TokenReader Program := do
  let room := (← get).room
  statementsToEnd (statement room (block room)) (← unread) []

/-- A single expression up to the last token. -/
def wholeExpression : TokenReader Expr := do
  let e ← expression (← get).room Precedence.lowest
  match ← peek with
  | some token => throw (.unexpectedToken token)
  | none => return e

end TokenReader

/-! ## From text -/

/-- The greatest number of levels unless another is set. -/
def defaultLimit : Int := 200

/-- What an action makes of all tokens. -/
def readTokens {α : Type} (action : TokenReader α) (tokens : List Token) (limit : Int) :
    Except ParseError α :=
  match action (TokenCursor.start tokens limit) with
  | .ok a _ => .ok a
  | .error e _ => .error e

def Program.ofTokens (tokens : List Token) (limit : Int) : Except ParseError Program :=
  readTokens TokenReader.program tokens limit

def Expr.ofTokens (tokens : List Token) (limit : Int) : Except ParseError Expr :=
  readTokens TokenReader.wholeExpression tokens limit

def readText {α : Type} (read : List Token → Except ParseError α) (source : String) :
    Except Failure α := do
  let ts ← (tokens source).mapError Failure.lex
  (read ts).mapError Failure.parse

/-- The program that a text spells. -/
def Program.parse (source : String) (limit : Int) : Except Failure Program :=
  readText (Program.ofTokens · limit) source

/-- The expression that a text spells. -/
def Expr.parse (source : String) (limit : Int) : Except Failure Expr :=
  readText (Expr.ofTokens · limit) source

end Imp32
