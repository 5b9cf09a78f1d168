import Imp32.Proofs.Evaluation
import Mathlib.Logic.Relation

/-!
# The calls of a run

A call of the interpreter makes other calls on its way, and so does each of them: `Call.Makes` is
one such step, with the variables at the beginning of both calls, and `Call.Reaches` any number of
them. A call that halts halts all that have led to it (`Call.Reaches.halts`), and a guarantee that is
kept by the steps of the interpreter holds wherever a call begins (`Call.Reaches.keeps`).
-/

namespace Imp32

/-- What the interpreter is called for: an expression, a statement, statements behind a result, or a
loop, behind a result, that may take so many turns. -/
inductive Call where
  | expr (e : Expr)
  | stmt (s : Stmt)
  | all (p : Program) (result : Int)
  | loop (cond : Expr) (body : List Stmt) (update : Option Expr) (rounds : Nat) (result : Int)

/-- One turn of a loop. -/
def Run.turn (turns : Nat) (body : List Stmt) (update : Option Expr) : Run Int := do
  let result ← execAll turns body 0
  let _ ← evalClause update
  return result

/-- What the interpreter does when it is called. -/
def Call.run (turns : Nat) : Call → Run Int
  | expr e => e.eval
  | stmt s => s.exec turns
  | all p result => execAll turns p result
  | loop cond body update rounds result =>
    Run.repeatWhile cond.eval (Run.turn turns body update) rounds result

/-- A call makes another one on its way. Each comes with the variables at its beginning. -/
inductive Call.Makes (turns : Nat) : Call × Env → Call × Env → Prop
  | operand {a : Expr} {span : Span} {env : Env} :
    Makes turns (.expr (.neg a span), env) (.expr a, env)
  | left {a b : Expr} {op : BinaryOp} {span : Span} {env : Env} : op ≠ .assign →
    Makes turns (.expr (.binary a op b span), env) (.expr a, env)
  | right {a b : Expr} {op : BinaryOp} {span : Span} {env env₁ : Env} {v : Int} : op ≠ .assign →
    a.eval env = .ok v env₁ → Makes turns (.expr (.binary a op b span), env) (.expr b, env₁)
  | source {a b : Expr} {span : Span} {env : Env} :
    Makes turns (.expr (.binary a .assign b span), env) (.expr b, env)
  | expr {e : Expr} {span : Span} {env : Env} :
    Makes turns (.stmt (.expr e span), env) (.expr e, env)
  | block {body : List Stmt} {span : Span} {env : Env} :
    Makes turns (.stmt (.block body span), env) (.all body 0, env)
  | condition {cond : Expr} {body : List Stmt} {span : Span} {env : Env} :
    Makes turns (.stmt (.ifThen cond body span), env) (.expr cond, env)
  | branch {cond : Expr} {body : List Stmt} {span : Span} {env env₁ : Env} {v : Int} :
    cond.eval env = .ok v env₁ → 0 < v →
      Makes turns (.stmt (.ifThen cond body span), env) (.all body 0, env₁)
  | whileLoop {cond : Expr} {body : List Stmt} {span : Span} {env : Env} :
    Makes turns (.stmt (.whileLoop cond body span), env) (.loop cond body none turns 0, env)
  | init {init : Expr} {cond update : Option Expr} {body : List Stmt} {span : Span} {env : Env} :
    Makes turns (.stmt (.forLoop (some init) cond update body span), env) (.expr init, env)
  | forLoop {init update : Option Expr} {cond : Expr} {body : List Stmt} {span : Span}
      {env env₁ : Env} {v : Int} : evalClause init env = .ok v env₁ →
    Makes turns (.stmt (.forLoop init (some cond) update body span), env)
      (.loop cond body update turns v, env₁)
  | test {cond : Expr} {body : List Stmt} {update : Option Expr} {rounds : Nat} {result : Int}
      {env : Env} :
    Makes turns (.loop cond body update (rounds + 1) result, env) (.expr cond, env)
  | body {cond : Expr} {body : List Stmt} {update : Option Expr} {rounds : Nat} {result v : Int}
      {env env₁ : Env} : cond.eval env = .ok v env₁ → 0 < v →
    Makes turns (.loop cond body update (rounds + 1) result, env) (.all body 0, env₁)
  | update {cond update : Expr} {body : List Stmt} {rounds : Nat} {result v r : Int}
      {env env₁ env₂ : Env} : cond.eval env = .ok v env₁ → 0 < v →
    execAll turns body 0 env₁ = .ok r env₂ →
      Makes turns (.loop cond body (some update) (rounds + 1) result, env) (.expr update, env₂)
  | again {cond : Expr} {body : List Stmt} {update : Option Expr} {rounds : Nat} {result v r : Int}
      {env env₁ env₂ : Env} : cond.eval env = .ok v env₁ → 0 < v →
    Run.turn turns body update env₁ = .ok r env₂ →
      Makes turns (.loop cond body update (rounds + 1) result, env)
        (.loop cond body update rounds r, env₂)
  | first {s : Stmt} {rest : Program} {result : Int} {env : Env} :
    Makes turns (.all (s :: rest) result, env) (.stmt s, env)
  | rest {s : Stmt} {rest : Program} {result v : Int} {env env₁ : Env} :
    s.exec turns env = .ok v env₁ →
      Makes turns (.all (s :: rest) result, env) (.all rest v, env₁)

/-- On its way, the call comes to the other one. -/
def Call.Reaches (turns : Nat) : Call × Env → Call × Env → Prop :=
  Relation.ReflTransGen (Call.Makes turns)

section Reaches

variable {turns : Nat} {a b : Call × Env}

/-! ## Halts -/

theorem Run.turn_none (turns : Nat) (body : List Stmt) :
    Run.turn turns body none = execAll turns body 0 := by
  unfold Run.turn evalClause
  simp

theorem Stmt.exec_whileLoop (cond : Expr) (body : List Stmt) (span : Span) :
    (Stmt.whileLoop cond body span).exec turns =
      Run.repeatWhile cond.eval (Run.turn turns body none) turns 0 := by
  rw [Run.turn_none]
  rfl

/-- A loop whose test holds takes a turn and goes on. -/
theorem Run.repeatWhile_of_pos {test turn : Run Int} {rounds : Nat} {result v : Int}
    {env env₁ : Env} (htest : test env = .ok v env₁) (hv : 0 < v) :
    Run.repeatWhile test turn (rounds + 1) result env =
      (turn >>= Run.repeatWhile test turn rounds) env₁ := by
  rw [Run.repeatWhile, bind_of_ok htest, if_pos hv]

theorem Call.Makes.halts {halt : Halt} {last : Env} (h : Makes turns a b)
    (hrun : b.1.run turns b.2 = .error halt last) : a.1.run turns a.2 = .error halt last := by
  cases h with
  | operand => exact bind_of_error hrun
  | left hop =>
    show Expr.eval _ _ = _
    rw [Expr.eval_binary hop]
    exact bind_of_error hrun
  | right hop ha =>
    show Expr.eval _ _ = _
    rw [Expr.eval_binary hop, bind_of_ok ha]
    exact bind_of_error hrun
  | source =>
    show Expr.eval _ _ = _
    rw [Expr.eval_assign]
    exact bind_of_error hrun
  | expr => exact hrun
  | block => exact hrun
  | condition => exact bind_of_error hrun
  | branch hcond hv =>
    refine (bind_of_ok hcond).trans ?_
    rw [if_pos hv]
    exact hrun
  | whileLoop =>
    show Stmt.exec _ _ _ = _
    rw [Stmt.exec_whileLoop]
    exact hrun
  | init => exact bind_of_error hrun
  | forLoop hinit => exact (bind_of_ok hinit).trans hrun
  | test => exact bind_of_error hrun
  | body hcond hv =>
    refine (Run.repeatWhile_of_pos hcond hv).trans (bind_of_error ?_)
    exact bind_of_error hrun
  | update hcond hv hbody =>
    refine (Run.repeatWhile_of_pos hcond hv).trans (bind_of_error ?_)
    exact (bind_of_ok hbody).trans (bind_of_error hrun)
  | again hcond hv hturn =>
    exact (Run.repeatWhile_of_pos hcond hv).trans ((bind_of_ok hturn).trans hrun)
  | first => exact bind_of_error hrun
  | rest hs => exact (bind_of_ok hs).trans hrun

/-- A call that halts halts those that have led to it. -/
theorem Call.Reaches.halts {halt : Halt} {last : Env} (h : Reaches turns a b)
    (hrun : b.1.run turns b.2 = .error halt last) : a.1.run turns a.2 = .error halt last := by
  induction h with
  | refl => exact hrun
  | tail _ hstep ih => exact ih (hstep.halts hrun)

/-! ## Guarantees -/

/-- What each node of the call does by itself is allowed. -/
def Call.Meets (G : Guarantee) : Call → Prop
  | expr e => e.Meets G
  | stmt s => s.Each (Expr.Meets G)
  | all p result => p.Each (Expr.Meets G) ∧ G.value result
  | loop cond body update _ result => cond.Meets G ∧ Program.Each (Expr.Meets G) body ∧
    (∀ e ∈ update, e.Meets G) ∧ G.value result

variable {G : Guarantee}

/-- An action that keeps the guarantee has allowed variables behind it. -/
theorem Guarantee.Keeps.ok {run : Run Int} {history : Env → List Outcome} {env env₁ : Env} {v : Int}
    (h : G.Keeps run history) (henv : G.env env) (hrun : run env = .ok v env₁) :
    G.value v ∧ G.env env₁ := by
  have hallowed := (h env henv).1
  rwa [hrun] at hallowed

theorem Run.keeps_turn (turns : Nat) (hG : G.Sound) {body : List Stmt} {update : Option Expr}
    (hbody : Program.Each (Expr.Meets G) body) (hupdate : ∀ e ∈ update, e.Meets G) :
    ∃ history, G.Keeps (Run.turn turns body update) history :=
  ⟨_, (keepsAll hG turns hbody 0 hG.zero).bind fun _ hresult =>
    (keeps_clause hG hupdate).map fun _ _ => .pure hresult⟩

theorem Call.Makes.keeps (hG : G.Sound) (h : Makes turns a b) (ha : a.1.Meets G)
    (henv : G.env a.2) : b.1.Meets G ∧ G.env b.2 := by
  cases h with
  | operand => exact ⟨ha, henv⟩
  | left hop =>
    simp only [Call.Meets, Expr.Meets, if_neg hop] at ha
    exact ⟨ha.1, henv⟩
  | right hop heval =>
    simp only [Call.Meets, Expr.Meets, if_neg hop] at ha
    exact ⟨ha.2.1, ((Expr.keeps hG ha.1).ok henv heval).2⟩
  | source =>
    simp only [Call.Meets, Expr.Meets, if_true] at ha
    exact ⟨ha.1, henv⟩
  | expr => exact ⟨ha, henv⟩
  | block => exact ⟨⟨ha, hG.zero⟩, henv⟩
  | condition => exact ⟨ha.1, henv⟩
  | branch hcond hv => exact ⟨⟨ha.2, hG.zero⟩, ((Expr.keeps hG ha.1).ok henv hcond).2⟩
  | whileLoop =>
    refine ⟨⟨ha.1, ha.2, ?_, hG.zero⟩, henv⟩
    intro e he
    cases he
  | init => exact ⟨ha.1 _ rfl, henv⟩
  | forLoop hinit =>
    obtain ⟨hvalue, henv₁⟩ := (keeps_clause hG ha.1).ok henv hinit
    exact ⟨⟨ha.2.1 _ rfl, ha.2.2.2, ha.2.2.1, hvalue⟩, henv₁⟩
  | test => exact ⟨ha.1, henv⟩
  | body hcond hv => exact ⟨⟨ha.2.1, hG.zero⟩, ((Expr.keeps hG ha.1).ok henv hcond).2⟩
  | update hcond hv hbody =>
    have henv₁ := ((Expr.keeps hG ha.1).ok henv hcond).2
    exact ⟨ha.2.2.1 _ rfl, ((keepsAll hG turns ha.2.1 0 hG.zero).ok henv₁ hbody).2⟩
  | again hcond hv hturn =>
    have henv₁ := ((Expr.keeps hG ha.1).ok henv hcond).2
    obtain ⟨_, hkeeps⟩ := Run.keeps_turn turns hG ha.2.1 ha.2.2.1
    obtain ⟨hvalue, henv₂⟩ := hkeeps.ok henv₁ hturn
    exact ⟨⟨ha.1, ha.2.1, ha.2.2.1, hvalue⟩, henv₂⟩
  | first => exact ⟨ha.1.1, henv⟩
  | rest hs =>
    obtain ⟨hvalue, henv₁⟩ := (Stmt.keeps hG turns ha.1.1).ok henv hs
    exact ⟨⟨ha.1.2, hvalue⟩, henv₁⟩

/-- Wherever a call begins, the variables are allowed. -/
theorem Call.Reaches.keeps (hG : G.Sound) (h : Reaches turns a b) (ha : a.1.Meets G)
    (henv : G.env a.2) : b.1.Meets G ∧ G.env b.2 := by
  induction h with
  | refl => exact ⟨ha, henv⟩
  | tail _ hstep ih => exact hstep.keeps hG ih.1 ih.2

end Reaches

end Imp32
