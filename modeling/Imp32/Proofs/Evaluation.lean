import Imp32.Program.Eval
import Imp32.Proofs.Proper

/-!
# What a run guarantees

A run calls the interpreter for expressions inside expressions and statements inside statements, and
each call comes to an outcome: a value or a reason why it has none, and the variables as it leaves
them. The `history` of an expression or a statement lists the outcomes of all its calls, in the order
in which they return, its own last.

A `Guarantee` says what values, variables and halts are allowed. The main statement is that a
guarantee which is kept by the single steps of the interpreter is kept by every outcome of a history
(`Expr.keeps`, `Stmt.keeps`, `keepsAll`).
-/

namespace Imp32

/-! ## The steps of the interpreter -/

section Steps

variable {op : BinaryOp} {a b : Expr} {span : Span}

theorem Expr.eval_var (name : String) (span : Span) (env : Env) :
    (Expr.var name span).eval env = match env.get? name with
      | some v => .ok v env
      | none => .error (.error (.unboundVariable name (some span))) env := by
  unfold Expr.eval
  show (match env.get? name with
    | some n => (Pure.pure n : Run Int)
    | none => Run.fail (.unboundVariable name (some span))) env = _
  cases env.get? name <;> rfl

theorem Expr.eval_binary (hop : op ≠ .assign) : (Expr.binary a op b span).eval = (do
    let m ← a.eval
    let n ← b.eval
    match op.apply m n span with
    | .ok r => return r
    | .error e => Run.fail e) := by
  cases op <;> first | rfl | exact absurd rfl hop

/-- Store a value in what stands to the left of an assignment. -/
def Run.store (target : Expr) (n : Int) : Run Int :=
  match target with
  | .var name _ => do
    modify (·.set name n)
    return n
  | _ => Run.fail .targetNotVariable

theorem Expr.eval_assign : (Expr.binary a .assign b span).eval = b.eval >>= Run.store a := by
  cases a <;> rfl

end Steps

/-! ## Histories -/

/-- What a call came to, and the variables as it left them. -/
abbrev Outcome := EStateM.Result Halt Env Int

/-- What a call left behind. -/
def Outcome.env : Outcome → Env
  | .ok _ env | .error _ env => env

/-- The outcomes of what follows a call, if it has a value. -/
def Outcome.next (outcome : Outcome) (calls : Int → Env → List Outcome) : List Outcome :=
  match outcome with
  | .ok v env => calls v env
  | .error _ _ => []

/-- The outcomes of all calls for an expression, in the order in which they return. -/
def Expr.history : Expr → Env → List Outcome
  | .value n span, env => [(Expr.value n span).eval env]
  | .var name span, env => [(Expr.var name span).eval env]
  | .neg a span, env => a.history env ++ [(Expr.neg a span).eval env]
  | .binary a op b span, env =>
    (if op = .assign then b.history env
      else a.history env ++ Outcome.next (a.eval env) fun _ env => b.history env) ++
      [(Expr.binary a op b span).eval env]

def clauseHistory (e : Option Expr) (env : Env) : List Outcome :=
  match e with
  | some e => e.history env
  | none => []

/-- The outcomes of the calls of a loop, given those of its test and of one turn. -/
def loopHistory (test turn : Run Int) (testHistory turnHistory : Env → List Outcome) :
    (turns : Nat) → Env → List Outcome
  | 0, _ => []
  | turns + 1, env =>
    testHistory env ++ Outcome.next (test env) fun v env =>
      if 0 < v then
        turnHistory env ++ Outcome.next (turn env) fun _ env =>
          loopHistory test turn testHistory turnHistory turns env
      else []

mutual

/-- The outcomes of all calls for a statement, in the order in which they return. -/
def Stmt.history (turns : Nat) : Stmt → Env → List Outcome
  | .expr e span, env => e.history env ++ [(Stmt.expr e span).exec turns env]
  | .block body span, env => historyAll turns body env ++ [(Stmt.block body span).exec turns env]
  | .ifThen cond body span, env =>
    (cond.history env ++ Outcome.next (cond.eval env) fun v env =>
      if 0 < v then historyAll turns body env else []) ++
      [(Stmt.ifThen cond body span).exec turns env]
  | .whileLoop cond body span, env =>
    loopHistory cond.eval (execAll turns body 0) cond.history (historyAll turns body) turns env ++
      [(Stmt.whileLoop cond body span).exec turns env]
  | .forLoop init cond update body span, env =>
    (clauseHistory init env ++ Outcome.next (evalClause init env) fun _ env =>
      match cond with
      | none => []
      | some cond =>
        let turn := do
          let result ← execAll turns body 0
          let _ ← evalClause update
          return result
        let turnHistory := fun env =>
          historyAll turns body env ++ Outcome.next (execAll turns body 0 env) fun _ env =>
            clauseHistory update env
        loopHistory cond.eval turn cond.history turnHistory turns env) ++
      [(Stmt.forLoop init cond update body span).exec turns env]

/-- The outcomes of all calls for statements in order. -/
def historyAll (turns : Nat) : Program → Env → List Outcome
  | [], _ => []
  | s :: rest, env =>
    s.history turns env ++ Outcome.next (s.exec turns env) fun _ env => historyAll turns rest env

end

/-- The outcomes of all calls for a program that is run on these variables, its own last. -/
def Program.history (turns : Nat) (p : Program) (env : Env) : List Outcome :=
  historyAll turns p env ++ [execAll turns p 0 env]

/-! ## Guarantees -/

/-- What values, variables and halts are allowed. -/
structure Guarantee where
  value : Int → Prop
  env : Env → Prop
  halt : Halt → Prop

namespace Guarantee

def Allows (G : Guarantee) : Outcome → Prop
  | .ok v env => G.value v ∧ G.env env
  | .error halt env => G.halt halt ∧ G.env env

/-- An outcome that is allowed leaves allowed variables behind. -/
theorem Allows.env {G : Guarantee} {outcome : Outcome} (h : G.Allows outcome) :
    G.env outcome.env := by
  cases outcome <;> exact h.2

/-- What the interpreter does by itself, whatever the program, is allowed. -/
structure Sound (G : Guarantee) : Prop where
  zero : G.value 0
  wrap (n : Int) : G.value (Word.wrap n)
  apply {op : BinaryOp} {a b r : Int} {span : Span} : op.apply a b span = .ok r → G.value r
  get {env : Env} {name : String} {n : Int} : G.env env → env.get? name = some n → G.value n
  outOfTurns : G.halt .outOfTurns

/-- From allowed variables, the action has an allowed outcome and its calls have. -/
def Keeps (G : Guarantee) (run : Run Int) (history : Env → List Outcome) : Prop :=
  ∀ env, G.env env → G.Allows (run env) ∧ ∀ outcome ∈ history env, G.Allows outcome

end Guarantee

/-- What each node of the expression does by itself is allowed. -/
def Expr.Meets (G : Guarantee) : Expr → Prop
  | .value n _ => G.value n
  | .var name span => G.halt (.error (.unboundVariable name (some span)))
  | .neg a _ => a.Meets G
  | .binary a op b span =>
    if op = .assign then
      b.Meets G ∧ match a with
        | .var name _ => ∀ env v, G.env env → G.value v → G.env (env.set name v)
        | _ => G.halt (.error .targetNotVariable)
    else
      a.Meets G ∧ b.Meets G ∧ ∀ m n e, op.apply m n span = .error e → G.halt (.error e)

/-! ## Histories keep guarantees -/

section Keeping

variable {G : Guarantee} {run run' : Run Int} {env : Env} {history history' : Env → List Outcome}

/-- An action behind another one that is allowed. -/
theorem Guarantee.Allows.bind {f : Int → Run Int} (h : G.Allows (run env))
    (hf : ∀ v env', G.value v → G.env env' → G.Allows (f v env')) :
    G.Allows ((run >>= f) env) := by
  cases hrun : run env with
  | ok v env' =>
    rw [hrun] at h
    rw [bind_of_ok hrun]
    exact hf v env' h.1 h.2
  | error halt env' =>
    rw [hrun] at h
    rwa [bind_of_error hrun]

/-- The calls behind another one that is allowed. -/
theorem Guarantee.Allows.next {first : Outcome} {calls : Int → Env → List Outcome}
    (h : G.Allows first)
    (hcalls : ∀ v env', G.value v → G.env env' → ∀ outcome ∈ calls v env', G.Allows outcome) :
    ∀ outcome ∈ first.next calls, G.Allows outcome := by
  cases first with
  | ok v env' => exact hcalls v env' h.1 h.2
  | error halt env' => exact nofun

namespace Guarantee.Keeps

/-- A history that ends with the outcome of the action itself. -/
theorem own (h : G.Keeps run history) : G.Keeps run (fun env => history env ++ [run env]) :=
  fun env henv => ⟨(h env henv).1, List.forall_mem_append.2
    ⟨(h env henv).2, fun _ ho => List.mem_singleton.1 ho ▸ (h env henv).1⟩⟩

theorem pure {v : Int} (hv : G.value v) : G.Keeps (pure v) (fun _ => []) :=
  fun _ henv => ⟨⟨hv, henv⟩, nofun⟩

theorem fail {halt : Halt} (h : G.halt halt) : G.Keeps (throw halt) (fun _ => []) :=
  fun _ henv => ⟨⟨h, henv⟩, nofun⟩

/-- One action behind the other, with the calls of both. -/
theorem bind {f : Int → Run Int} {calls : Int → Env → List Outcome} (h : G.Keeps run history)
    (hf : ∀ v, G.value v → G.Keeps (f v) (calls v)) :
    G.Keeps (run >>= f) (fun env => history env ++ Outcome.next (run env) calls) := by
  intro env henv
  obtain ⟨hrun, hhistory⟩ := h env henv
  exact ⟨hrun.bind fun v env' hv henv' => (hf v hv env' henv').1, List.forall_mem_append.2
    ⟨hhistory, hrun.next fun v env' hv henv' => (hf v hv env' henv').2⟩⟩

/-- What follows makes no calls. -/
theorem map {f : Int → Run Int} (h : G.Keeps run history)
    (hf : ∀ v, G.value v → G.Keeps (f v) (fun _ => [])) : G.Keeps (run >>= f) history := by
  intro env henv
  obtain ⟨hrun, hhistory⟩ := h env henv
  exact ⟨hrun.bind fun v env' hv henv' => (hf v hv env' henv').1, hhistory⟩

end Guarantee.Keeps

theorem Expr.keeps (hG : G.Sound) {e : Expr} (h : e.Meets G) : G.Keeps e.eval e.history := by
  induction e with
  | value n span => exact (Guarantee.Keeps.pure (G := G) h).own
  | var name span =>
    have hvar : G.Keeps (Expr.var name span).eval (fun _ => []) := by
      refine fun env henv => ⟨?_, nofun⟩
      rw [Expr.eval_var]
      cases hget : env.get? name with
      | none => exact ⟨h, henv⟩
      | some v => exact ⟨hG.get henv hget, henv⟩
    exact hvar.own
  | neg a span ih =>
    exact ((ih h).map fun v _ => .pure (hG.wrap (-v))).own
  | binary a op b span iha ihb =>
    by_cases hop : op = .assign
    · subst hop
      simp only [Expr.Meets, if_true] at h
      have hstore : ∀ n, G.value n → G.Keeps (Run.store a n) (fun _ => []) := by
        intro n hn
        cases a with
        | var name _ => exact fun env henv => ⟨⟨hn, h.2 env n henv hn⟩, nofun⟩
        | _ => exact .fail h.2
      have hown := ((ihb h.1).map hstore).own
      simpa only [Expr.history, if_true, Expr.eval_assign] using hown
    · simp only [Expr.Meets, if_neg hop] at h
      obtain ⟨ha, hb, happly⟩ := h
      have hboth := (iha ha).bind fun m _ => (ihb hb).map (f := fun n =>
        match op.apply m n span with
        | .ok r => return r
        | .error e => Run.fail e) fun n _ => by
          cases hr : op.apply m n span with
          | ok r => exact .pure (hG.apply hr)
          | error e => exact .fail (happly m n e hr)
      have hown := hboth.own
      simpa only [Expr.history, if_neg hop, Expr.eval_binary hop] using hown

theorem keeps_clause (hG : G.Sound) {e : Option Expr} (h : ∀ a ∈ e, a.Meets G) :
    G.Keeps (evalClause e) (clauseHistory e) := by
  cases e with
  | none => exact .pure hG.zero
  | some a => exact a.keeps hG (h a rfl)

/-- A loop keeps what its test and its turn keep, for any number of turns. -/
theorem keeps_loop (hG : G.Sound) {test turn : Run Int} {testHistory turnHistory : Env → List Outcome}
    (htest : G.Keeps test testHistory) (hturn : G.Keeps turn turnHistory) (turns : Nat) :
    ∀ result, G.value result → G.Keeps (Run.repeatWhile test turn turns result)
      (loopHistory test turn testHistory turnHistory turns) := by
  induction turns with
  | zero => exact fun result _ => .fail hG.outOfTurns
  | succ turns ih =>
    intro result hresult
    refine htest.bind fun v _ => ?_
    by_cases hv : 0 < v
    · simp only [if_pos hv]
      exact hturn.bind ih
    · simp only [if_neg hv]
      exact .pure hresult

mutual

theorem Stmt.keeps (hG : G.Sound) (turns : Nat) {s : Stmt} (h : s.Each (Expr.Meets G)) :
    G.Keeps (s.exec turns) (s.history turns) := by
  cases s with
  | expr e span => exact (e.keeps hG h).own
  | block body span => exact (keepsAll hG turns h 0 hG.zero).own
  | ifThen cond body span =>
    refine ((cond.keeps hG h.1).bind fun v _ => ?_).own
    by_cases hv : 0 < v
    · simp only [if_pos hv]
      exact keepsAll hG turns h.2 0 hG.zero
    · simp only [if_neg hv]
      exact .pure hG.zero
  | whileLoop cond body span =>
    exact (keeps_loop hG (cond.keeps hG h.1) (keepsAll hG turns h.2 0 hG.zero) turns 0 hG.zero).own
  | forLoop init cond update body span =>
    obtain ⟨hinit, hcond, hupdate, hbody⟩ := h
    refine ((keeps_clause hG hinit).bind fun first hfirst => ?_).own
    cases cond with
    | none => exact .pure hG.zero
    | some cond =>
      have hturn := (keepsAll hG turns hbody 0 hG.zero).bind fun result hresult =>
        (keeps_clause hG hupdate).map fun _ _ => .pure hresult
      exact keeps_loop hG (cond.keeps hG (hcond cond rfl)) hturn turns first hfirst

/-- Statements in order keep a guarantee that each of their nodes meets. -/
theorem keepsAll (hG : G.Sound) (turns : Nat) {p : Program} (h : p.Each (Expr.Meets G)) :
    ∀ result, G.value result → G.Keeps (execAll turns p result) (historyAll turns p) := by
  intro result hresult
  cases p with
  | nil => exact .pure hresult
  | cons s rest => exact (Stmt.keeps hG turns h.1).bind (keepsAll hG turns h.2)

end

end Keeping

end Imp32
