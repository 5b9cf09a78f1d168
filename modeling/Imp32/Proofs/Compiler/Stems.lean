import Imp32.Proofs.Compiler.Expressions

/-!
# Labels that are given out

Whatever labels the operations of compiled code set and branch to were given out, with one of the
stems that there are: none of them names a handler or comes from outside
(`statementsCode_given`). The proof is by induction on the program; what an action returns is
followed through its binds (`Compile.Yields`).
-/

namespace Imp32

open Assembly

namespace Assembly

/-- The stems of the labels that are given out, for statements and for expansions. -/
def Label.stems : List String :=
  ["else", "end", "loop", "loop_end", "pow_loop", "pow_end", "div_neg", "div_end"]

def Label.Given (l : Label) : Prop := ∃ stem ∈ stems, ∃ number, l = .fresh stem number

/-- The labels that the operation names were given out. -/
def Op.Given : Op → Prop
  | branch l | branchIfNotPositive l | label l => l.Given
  | _ => True

/-- The labels that the operations of the steps name were given out. -/
def AllGiven (steps : List Step) : Prop := ∀ step ∈ steps, step.op.Given

theorem AllGiven.append {a b : List Step} (ha : AllGiven a) (hb : AllGiven b) :
    AllGiven (a ++ b) := fun step hstep => (List.mem_append.1 hstep).elim (ha step) (hb step)

/-- So are the labels of the expansion. -/
theorem Label.given_of_mem_scratch {target : Target} {op : Op} {n : Nat} {l : Label}
    (h : l ∈ (op.step target n).scratch) : l.Given := by
  obtain ⟨stem, hstem, k, rfl⟩ := mem_freshLabels h
  refine ⟨stem, ?_, k, rfl⟩
  cases target with
  | arm64 =>
    change stem ∈ Arm64.scratch op at hstem
    unfold Arm64.scratch at hstem
    split at hstem <;> grind [stems]
  | x86 =>
    change stem ∈ X86.scratch op at hstem
    unfold X86.scratch at hstem
    split at hstem <;> grind [stems]

/-- All labels that a step of compiled code sets were given out. -/
theorem Step.given_of_mem_labels {target : Target} {slots : Nat} {step : Step} (h : step.op.Given)
    (hinner : step.op.Inner slots) (hformed : ∃ k, step = step.op.step target k) {l : Label}
    (hl : l ∈ step.labels) : l.Given := by
  obtain ⟨k, hk⟩ := hformed
  have hscratch : l ∈ step.scratch → l.Given := fun hmem => by
    rw [hk] at hmem
    exact Label.given_of_mem_scratch hmem
  unfold Step.labels at hl
  split at hl
  · rename_i l' hop
    rw [hop] at h
    rwa [List.mem_singleton.1 hl]
  · rename_i hop
    rw [hop] at hinner
    cases hinner
  · exact hscratch hl

end Assembly

namespace Compile

variable {α β : Type} {P : α → Prop} {Q : β → Prop}

def Yields (P : α → Prop) (code : Compile α) : Prop := ∀ n a n', code n = .ok a n' → P a

theorem Yields.bind {code : Compile α} {next : α → Compile β} (h : Yields P code)
    (hnext : ∀ a, P a → Yields Q (next a)) : Yields Q (code >>= next) := by
  intro n b n' hcode
  obtain ⟨a, n₁, ha, hb⟩ := bind_eq_ok.1 hcode
  exact hnext a (h n a n₁ ha) n₁ b n' hb

theorem Yields.pure {a : α} (h : P a) : Yields P (Pure.pure a : Compile α) := by
  intro n b n' hcode
  obtain ⟨rfl, -⟩ := pure_eq_ok.1 hcode
  exact h

variable {target : Target} {names : List String}

theorem newLabel_given {stem : String} (h : stem ∈ Label.stems) :
    Yields Label.Given (newLabel stem) := by
  intro n l n' hcode
  rw [newLabel_eq] at hcode
  cases hcode
  exact ⟨stem, h, n + 1, rfl⟩

theorem op_given {o : Op} (h : o.Given) : Yields AllGiven (op target o) := by
  intro n steps n' hcode
  rw [op_eq] at hcode
  cases hcode
  intro step hstep
  rw [List.mem_singleton.1 hstep]
  exact h

theorem ops_given {os : List Op} (h : ∀ o ∈ os, o.Given) : Yields AllGiven (ops target os) := by
  induction os with
  | nil => exact .pure nofun
  | cons o os ih =>
    obtain ⟨ho, hos⟩ := List.forall_mem_cons.1 h
    exact (op_given ho).bind fun first hfirst => (ih hos).bind fun others hothers =>
      .pure (hfirst.append hothers)

end Compile

section Given

open Compile

variable {target : Target} {names : List String}

theorem Assembly.Op.given_operation (op : BinaryOp) : (Compile.operation op).Given := by
  cases op <;> trivial

theorem Expr.code_given (e : Expr) : Yields AllGiven (e.code target names) := by
  induction e with
  | value n span => exact op_given trivial
  | var name span => exact ops_given (by simp [Op.Given])
  | neg a span ih =>
    exact ih.bind fun operand hoperand =>
      (ops_given (by simp [Op.Given])).bind fun apply happly => .pure (hoperand.append happly)
  | binary a op b span iha ihb =>
    by_cases hop : op = .assign
    · subst hop
      refine ihb.bind fun right hright => ?_
      cases a with
      | var name span' =>
        exact (ops_given (by simp [Op.Given])).bind fun store hstore => .pure (hright.append hstore)
      | _ => exact nofun
    · rw [Expr.code_binary hop]
      exact iha.bind fun left hleft => ihb.bind fun right hright =>
        (ops_given (by simpa [Op.Given] using Op.given_operation op)).bind fun apply happly =>
          .pure ((hleft.append hright).append happly)

theorem clause_given (e : Option Expr) : Yields AllGiven (clause target names e) := by
  cases e with
  | none => exact .pure nofun
  | some e =>
    exact e.code_given.bind fun value hvalue =>
      (op_given (o := .popResult) trivial).bind fun drop hdrop => .pure (hvalue.append hdrop)

theorem test_given (cond : Expr) {exit : Label} (hexit : exit.Given) :
    Yields AllGiven (test target names cond exit) :=
  cond.code_given.bind fun _ hvalue =>
    (ops_given (by simp [Op.Given, hexit])).bind fun _ hleave => .pure (hvalue.append hleave)

/-- A loop sets its head and its exit, and branches to both. -/
theorem loop_given (cond : Expr) {body : Compile (List Step)} (update : Option Expr)
    (hbody : Yields AllGiven body) : Yields AllGiven (loop target names cond body update) := by
  refine (newLabel_given (by decide)).bind fun head hhead => ?_
  refine (newLabel_given (by decide)).bind fun exit hexit => ?_
  refine (op_given (o := .label head) hhead).bind fun enter henter => ?_
  refine (test_given cond hexit).bind fun check hcheck => ?_
  refine hbody.bind fun turn hturn => ?_
  refine (op_given (o := .storeTop) trivial).bind fun keep hkeep => ?_
  refine (clause_given update).bind fun next hnext => ?_
  refine (ops_given (by simp [Op.Given, hhead, hexit])).bind fun leave hleave => ?_
  exact .pure (((((henter.append hcheck).append hturn).append hkeep).append hnext).append hleave)

theorem body_given (empty : Bool) {code : Compile (List Step)} (h : Yields AllGiven code) :
    Yields AllGiven (Compile.body target empty code) := by
  cases empty with
  | true => exact op_given trivial
  | false => exact h

mutual

theorem Stmt.code_given (s : Stmt) : Yields AllGiven (s.code target names) := by
  cases s with
  | expr e span => exact clause_given (some e)
  | block body span => exact body_given _ (statementsCode_given body)
  | ifThen cond body span =>
    refine (newLabel_given (by decide)).bind fun otherwise hotherwise => ?_
    refine (newLabel_given (by decide)).bind fun exit hexit => ?_
    refine (test_given cond hotherwise).bind fun check hcheck => ?_
    refine (body_given _ (statementsCode_given body)).bind fun inner hinner => ?_
    refine (ops_given (by simp [Op.Given, hotherwise, hexit])).bind fun leave hleave => ?_
    exact .pure ((hcheck.append hinner).append hleave)
  | whileLoop cond body span =>
    exact (op_given (o := .pushImm 0) trivial).bind fun first hfirst =>
      (loop_given cond none (body_given _ (statementsCode_given body))).bind fun rest hrest =>
        .pure (hfirst.append hrest)
  | forLoop init cond update body span =>
    cases cond with
    | none =>
      have hzero : ∀ first, AllGiven first → Yields AllGiven (do
          let zero ← ops target [.popResult, .loadZero]
          return first ++ zero) := fun first hfirst =>
        (ops_given (by simp [Op.Given])).bind fun zero hzero => .pure (hfirst.append hzero)
      cases init with
      | none => exact (op_given (o := .pushImm 0) trivial).bind hzero
      | some e => exact e.code_given.bind hzero
    | some cond =>
      have hloop : ∀ first, AllGiven first → Yields AllGiven (do
          let rest ← loop target names cond (Compile.body target body.isEmpty
            (statementsCode target names body)) update
          return first ++ rest) := fun first hfirst =>
        (loop_given cond update (body_given _ (statementsCode_given body))).bind
          fun rest hrest => .pure (hfirst.append hrest)
      cases init with
      | none => exact (op_given (o := .pushImm 0) trivial).bind hloop
      | some e => exact e.code_given.bind hloop

theorem statementsCode_given (p : List Stmt) :
    Yields AllGiven (statementsCode target names p) := by
  cases p with
  | nil => exact .pure nofun
  | cons s rest =>
    exact (Stmt.code_given s).bind fun first hfirst =>
      (statementsCode_given rest).bind fun others hothers => .pure (hfirst.append hothers)

end

end Given

end Imp32
