import Imp32.Proofs.Reading.Names
import Imp32.Proofs.Variables

/-!
# What a statement sees and touches

A statement sees the variables only that it mentions: on variables that agree on these, it comes to
the same value or error in the same number of turns, or to none in both, and leaves variables behind
that agree again (`Stmt.sees`). It touches those only that it assigns, and unbinds none
(`Guarantee.beside_keptBy`). Both hold on every way out (`Stmt.exec_confined`).

The first half is an induction on two runs at once: one action behind the other sees what both see,
and a loop what its test and its turn see, so that both runs take the same number of turns.
-/

namespace Imp32

/-! ## Agreement -/

/-- The variables that the expressions mention are bound to the same values, or unbound in both. -/
def AgreeOn (es : List Expr) (env env' : Env) : Prop :=
  ∀ name, Mentions es name → env.get? name = env'.get? name

/-- Both have the same value or the same reason why they have none, and leave variables that
agree. -/
def Outcome.Alike (es : List Expr) : Outcome → Outcome → Prop
  | .ok v env, .ok v' env' => v = v' ∧ AgreeOn es env env'
  | .error halt env, .error halt' env' => halt = halt' ∧ AgreeOn es env env'
  | _, _ => False

/-- The action comes to the same from variables that agree. -/
def Run.Sees (es : List Expr) (run : Run Int) : Prop :=
  ∀ env env', AgreeOn es env env' → Outcome.Alike es (run env) (run env')

section Agreement

variable {es : List Expr} {env env' : Env}

theorem AgreeOn.symm (h : AgreeOn es env env') : AgreeOn es env' env :=
  fun name hname => (h name hname).symm

theorem AgreeOn.set (h : AgreeOn es env env') (name : String) (v : Int) :
    AgreeOn es (env.set name v) (env'.set name v) := by
  intro other hother
  rw [Bindings.get?_set, Bindings.get?_set, h other hother]

end Agreement

/-! ## What actions see -/

namespace Run.Sees

variable {es : List Expr} {run test turn : Run Int}

theorem pure (es : List Expr) (v : Int) : Sees es (Pure.pure v) :=
  fun _ _ h => ⟨rfl, h⟩

theorem throw (es : List Expr) (halt : Halt) : Sees es (MonadExcept.throw halt) :=
  fun _ _ h => ⟨rfl, h⟩

/-- One action behind the other. -/
theorem bind {f : Int → Run Int} (h : Sees es run) (hf : ∀ v, Sees es (f v)) :
    Sees es (run >>= f) := by
  intro env env' henv
  have hrun := h env env' henv
  cases hleft : run env with
  | ok v env₁ =>
    cases hright : run env' with
    | ok v' env₁' =>
      rw [hleft, hright] at hrun
      obtain ⟨rfl, henv₁⟩ := hrun
      rw [bind_of_ok hleft, bind_of_ok hright]
      exact hf v env₁ env₁' henv₁
    | error halt' env₁' =>
      rw [hleft, hright] at hrun
      exact hrun.elim
  | error halt env₁ =>
    cases hright : run env' with
    | ok v' env₁' =>
      rw [hleft, hright] at hrun
      exact hrun.elim
    | error halt' env₁' =>
      rw [hleft, hright] at hrun
      rw [bind_of_error hleft, bind_of_error hright]
      exact hrun

theorem ite {condition : Prop} [Decidable condition] {run' : Run Int} (h : Sees es run)
    (h' : Sees es run') : Sees es (if condition then run else run') := by
  split
  · exact h
  · exact h'

/-- Reading a variable that is seen. -/
theorem var {name : String} {span : Span} (h : Mentions es name) :
    Sees es (Expr.var name span).eval := by
  intro env env' henv
  rw [Expr.eval_var, Expr.eval_var, henv name h]
  cases env'.get? name with
  | none => exact ⟨rfl, henv⟩
  | some v => exact ⟨rfl, henv⟩

/-- Storing a value needs to see nothing. -/
theorem store (es : List Expr) (target : Expr) (v : Int) : Sees es (Run.store target v) := by
  cases target with
  | var name place => exact fun env env' henv => ⟨rfl, henv.set name v⟩
  | _ => exact throw es _

/-- A loop, by induction on the turns that it may take. -/
theorem repeatWhile (htest : Sees es test) (hturn : Sees es turn) (turns : Nat) :
    ∀ result, Sees es (Run.repeatWhile test turn turns result) := by
  induction turns with
  | zero => exact fun _ => throw es .outOfTurns
  | succ turns ih => exact fun result => htest.bind fun v => .ite (hturn.bind ih) (pure es result)

end Run.Sees

section Sees

variable {es : List Expr}

theorem Expr.sees {e : Expr} (h : e.parts ⊆ es) : Run.Sees es e.eval := by
  induction e with
  | value n span => exact .pure es n
  | var name span => exact .var ⟨span, h List.mem_cons_self⟩
  | neg a span ih => exact (ih (List.cons_subset.1 h).2).bind fun v => .pure es _
  | binary a op b span iha ihb =>
    obtain ⟨ha, hb⟩ := List.append_subset.1 (List.cons_subset.1 h).2
    by_cases hop : op = .assign
    · subst hop
      rw [Expr.eval_assign]
      exact (ihb hb).bind (.store es a)
    · rw [Expr.eval_binary hop]
      refine (iha ha).bind fun m => (ihb hb).bind fun n => ?_
      cases op.apply m n span with
      | ok r => exact .pure es r
      | error e => exact .throw es (.error e)

theorem clause_sees {e : Option Expr} (h : ∀ a ∈ e, a.parts ⊆ es) :
    Run.Sees es (evalClause e) := by
  cases e with
  | none => exact .pure es 0
  | some a => exact a.sees (h a rfl)

mutual

/-- A statement sees the variables only that its expressions mention. -/
theorem Stmt.sees (turns : Nat) {s : Stmt} (h : s.Each fun e => e.parts ⊆ es) :
    Run.Sees es (s.exec turns) := by
  cases s with
  | expr e span => exact e.sees h
  | block body span => exact execAll_sees turns h 0
  | ifThen cond body span =>
    exact (cond.sees h.1).bind fun v => .ite (execAll_sees turns h.2 0) (.pure es 0)
  | whileLoop cond body span =>
    exact (cond.sees h.1).repeatWhile (execAll_sees turns h.2 0) turns 0
  | forLoop init cond update body span =>
    obtain ⟨hinit, hcond, hupdate, hbody⟩ := h
    refine (clause_sees hinit).bind fun first => ?_
    cases cond with
    | none => exact .pure es 0
    | some cond =>
      have hturn := (execAll_sees turns hbody 0).bind fun result =>
        (clause_sees hupdate).bind fun _ => .pure es result
      exact (cond.sees (hcond cond rfl)).repeatWhile hturn turns first

theorem execAll_sees (turns : Nat) {p : Program} (h : p.Each fun e => e.parts ⊆ es) :
    ∀ result, Run.Sees es (execAll turns p result) := by
  intro result
  cases p with
  | nil => exact .pure es result
  | cons s rest => exact (Stmt.sees turns h.1).bind (execAll_sees turns h.2)

end

end Sees

/-! ## What statements touch -/

/-- Variables that none of the expressions assigns are as at the start, and all that were bound then
are bound. -/
def Guarantee.beside (es : List Expr) (start : Env) : Guarantee where
  value _ := True
  env env := (∀ name, (∀ place, ¬Assigns es name place) → env.get? name = start.get? name) ∧
    ∀ name, start.has name = true → env.has name = true
  halt _ := True

theorem Guarantee.beside_open (es : List Expr) (start : Env) : (beside es start).Open :=
  ⟨fun _ => trivial, fun _ => trivial⟩

theorem Guarantee.beside_keptBy (es : List Expr) (start : Env) : (beside es start).KeptBy es := by
  rintro name place hplace env v ⟨hsame, hbound⟩
  constructor
  · intro other hother
    rw [Bindings.get?_set, if_neg, hsame other hother]
    rintro rfl
    exact hother place hplace
  · intro other hother
    unfold Bindings.has
    rw [Bindings.get?_set]
    split
    · rfl
    · exact hbound other hother

/-! ## Statements -/

namespace Stmt

/-- With enough turns, the statement has a value. -/
def Returns (s : Stmt) (env : Env) (v : Int) (last : Env) : Prop :=
  ∃ turns, s.exec turns env = .ok v last

/-- With enough turns, the statement fails. -/
def FailsWith (s : Stmt) (env : Env) (e : EvalError) (last : Env) : Prop :=
  ∃ turns, s.exec turns env = .error (.error e) last

/-- The statement runs out of turns, however many it is given. -/
def Diverges (s : Stmt) (env : Env) : Prop :=
  ∀ turns, ∃ last, s.exec turns env = .error .outOfTurns last

/-- What the statement does from the first variables, it also does from the second, and leaves
variables behind that agree on what it mentions. -/
structure Follows (s : Stmt) (env env' : Env) : Prop where
  returns : ∀ v last, s.Returns env v last →
    ∃ last', s.Returns env' v last' ∧ AgreeOn s.parts last last'
  fails : ∀ e last, s.FailsWith env e last →
    ∃ last', s.FailsWith env' e last' ∧ AgreeOn s.parts last last'
  diverges : s.Diverges env → s.Diverges env'

/-- From variables that agree on what the statement mentions it does the same, and it leaves alone
what it does not assign. -/
structure Confined (s : Stmt) (env env' : Env) : Prop where
  /-- However many turns its loops may take, the outcome is the same. -/
  alike : ∀ turns, Outcome.Alike s.parts (s.exec turns env) (s.exec turns env')
  there : s.Follows env env'
  back : s.Follows env' env
  unassigned : ∀ turns name, (∀ place, ¬Assigns s.parts name place) →
    (Outcome.env (s.exec turns env)).get? name = env.get? name
  bound : ∀ turns name, env.has name = true → (Outcome.env (s.exec turns env)).has name = true

end Stmt

namespace Outcome.Alike

variable {es : List Expr} {outcome : Outcome} {last : Env}

theorem of_ok {v : Int} (h : Alike es (.ok v last) outcome) :
    ∃ last', outcome = .ok v last' ∧ AgreeOn es last last' := by
  cases outcome with
  | ok v' last' => exact ⟨last', by rw [h.1], h.2⟩
  | error halt last' => exact h.elim

theorem of_error {halt : Halt} (h : Alike es (.error halt last) outcome) :
    ∃ last', outcome = .error halt last' ∧ AgreeOn es last last' := by
  cases outcome with
  | ok v last' => exact h.elim
  | error halt' last' => exact ⟨last', by rw [h.1], h.2⟩

end Outcome.Alike

/-- By the same number of turns in both runs. -/
theorem Stmt.follows (s : Stmt) {env env' : Env} (h : AgreeOn s.parts env env') :
    s.Follows env env' := by
  have halike := fun turns => Stmt.sees turns (Stmt.each_parts (List.Subset.refl s.parts)) env env' h
  constructor
  case returns =>
    rintro v last ⟨turns, hrun⟩
    have hturns := halike turns
    rw [hrun] at hturns
    obtain ⟨last', hrun', hlast⟩ := hturns.of_ok
    exact ⟨last', ⟨turns, hrun'⟩, hlast⟩
  case fails =>
    rintro e last ⟨turns, hrun⟩
    have hturns := halike turns
    rw [hrun] at hturns
    obtain ⟨last', hrun', hlast⟩ := hturns.of_error
    exact ⟨last', ⟨turns, hrun'⟩, hlast⟩
  case diverges =>
    intro hdiverges turns
    obtain ⟨last, hrun⟩ := hdiverges turns
    have hturns := halike turns
    rw [hrun] at hturns
    obtain ⟨last', hrun', -⟩ := hturns.of_error
    exact ⟨last', hrun'⟩

/-- What a statement comes to depends on the variables that it mentions only, and it changes those
only that it assigns. -/
theorem Stmt.exec_confined (s : Stmt) {env env' : Env} (h : AgreeOn s.parts env env') :
    s.Confined env env' := by
  have hbeside : ∀ turns, (Guarantee.beside s.parts env).env (Outcome.env (s.exec turns env)) :=
    fun turns => (Guarantee.beside_open s.parts env).exec (Guarantee.beside_keptBy s.parts env) turns
      ⟨fun _ _ => rfl, fun _ => id⟩
  exact {
    alike := fun turns => Stmt.sees turns (Stmt.each_parts (List.Subset.refl _)) env env' h
    there := s.follows h
    back := s.follows h.symm
    unassigned := fun turns => (hbeside turns).1
    bound := fun turns => (hbeside turns).2 }

/-- `while x y = 8 / (x = x - 1);` fails in its second turn, in the middle of an assignment, also
where `z` is bound besides. -/
theorem Stmt.exec_confined_midway :
    let span := Span.mk 0 0
    let x : Expr := .var "x" span
    let less : Expr := .binary x .assign (.binary x .sub (.value 1 span) span) span
    let s : Stmt := .whileLoop x [.expr (.binary (.var "y" span) .assign
      (.binary (.value 8 span) .div less span) span) span] span
    let env : Env := [("x", 2)]
    let env' : Env := [("z", 5), ("x", 2)]
    AgreeOn s.parts env env' ∧ s.Confined env env' ∧
      s.FailsWith env (.divisionByZero span) [("x", 0), ("y", 8)] ∧
      s.FailsWith env' (.divisionByZero span) [("z", 5), ("x", 0), ("y", 8)] := by
  intro span x less s env env'
  have hagree : AgreeOn s.parts env env' := by
    rintro name ⟨place, hmem⟩
    have hmem : (name = "x" ∧ place = span) ∨ (name = "y" ∧ place = span) := by
      simpa [s, x, less, Stmt.parts, Program.parts, Expr.parts, or_comm] using hmem
    rcases hmem.imp And.left And.left with rfl | rfl
    · rfl
    · rfl
  exact ⟨hagree, s.exec_confined hagree, ⟨3, rfl⟩, ⟨3, rfl⟩⟩

end Imp32
