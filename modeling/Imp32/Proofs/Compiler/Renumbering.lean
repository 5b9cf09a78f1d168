import Imp32.Proofs.Compiler.Linking

/-!
# Code over other slots

The names of a program may have other slots. Its code is then the same but for the numbers in the
operations that load and store a variable (`statements_renumber`), for any program that assigns to
variables only and whose names are among the slots.
-/

namespace Imp32

open Assembly

/-! ## Operations -/

/-- The number among other slots of the name that has the number. -/
def renumber (names names' : List String) (slot : Int) : Int :=
  match names[slot.toNat]? with
  | some name => names'.idxOf name
  | none => slot

theorem renumber_idxOf {names : List String} {name : String} (h : name ∈ names)
    (names' : List String) : renumber names names' (names.idxOf name) = names'.idxOf name := by
  have hlt := List.idxOf_lt_length_of_mem h
  unfold renumber
  rw [Int.toNat_natCast, List.getElem?_eq_getElem hlt, List.getElem_idxOf hlt]

namespace Assembly

/-- The operation on the slots that the names have among others. -/
def Op.renumber (names names' : List String) : Op → Op
  | loadVar slot => loadVar (Imp32.renumber names names' slot)
  | storeVar slot => storeVar (Imp32.renumber names names' slot)
  | op => op

/-- The step on the slots that the names have among others. -/
def Step.renumber (names names' : List String) (step : Step) : Step :=
  { step with op := step.op.renumber names names' }

variable {names names' : List String}

/-- No label depends on the number of a slot. -/
theorem Target.scratch_renumber (target : Target) (o : Op) :
    target.scratch (o.renumber names names') = target.scratch o := by
  cases target <;> cases o <;> rfl

theorem Op.step_renumber (target : Target) (o : Op) (n : Nat) :
    (o.renumber names names').step target n = (o.step target n).renumber names names' := by
  unfold Op.step
  rw [Target.scratch_renumber]
  rfl

theorem Step.trapKinds_renumber (step : Step) :
    (step.renumber names names').op.trapKinds = step.op.trapKinds := by
  obtain ⟨op, scratch⟩ := step
  cases op <;> rfl

/-- A step has as many lines, whatever the slot is. -/
theorem Target.length_lines_renumber (target : Target) (step : Step) :
    (target.lines (step.renumber names names')).length = (target.lines step).length := by
  obtain ⟨op, scratch⟩ := step
  cases target <;> cases op <;> rfl

theorem kindsOf_renumber (steps : List Step) :
    kindsOf (steps.map (Step.renumber names names')) = kindsOf steps := by
  unfold kindsOf
  rw [List.flatMap_map]
  simp only [Step.trapKinds_renumber]

end Assembly

theorem Compile.operation_renumber (names names' : List String) (op : BinaryOp) :
    (Compile.operation op).renumber names names' = Compile.operation op := by
  cases op <;> rfl

/-! ## Actions -/

/-- Both actions come to code, which is the same but for the numbers of the slots. -/
def Compile.Renumbers (names names' : List String) (code code' : Compile (List Step)) : Prop :=
  ∀ n, ∃ steps n', code n = .ok steps n' ∧
    code' n = .ok (steps.map (Step.renumber names names')) n'

namespace Compile.Renumbers

variable {target : Target} {names names' : List String} {code code' : Compile (List Step)}

theorem pure {steps steps' : List Step} (h : steps' = steps.map (Step.renumber names names')) :
    Renumbers names names' (pure steps) (pure steps') :=
  fun n => ⟨steps, n, rfl, h ▸ rfl⟩

theorem bind {next next' : List Step → Compile (List Step)} (h : Renumbers names names' code code')
    (hnext : ∀ steps, Renumbers names names' (next steps)
      (next' (steps.map (Step.renumber names names')))) :
    Renumbers names names' (code >>= next) (code' >>= next') := by
  intro n
  obtain ⟨first, n₁, hcode, hcode'⟩ := h n
  obtain ⟨steps, n₂, hrest, hrest'⟩ := hnext first n₁
  exact ⟨steps, n₂, (bind_of_ok hcode).trans hrest, (bind_of_ok hcode').trans hrest'⟩

theorem newLabel {next next' : Label → Compile (List Step)} {stem : String}
    (hnext : ∀ l, Renumbers names names' (next l) (next' l)) :
    Renumbers names names' (newLabel stem >>= next) (newLabel stem >>= next') := by
  intro n
  obtain ⟨steps, n₁, hrest, hrest'⟩ := hnext (.fresh stem (n + 1)) (n + 1)
  exact ⟨steps, n₁, (bind_of_ok (newLabel_eq stem n)).trans hrest,
    (bind_of_ok (newLabel_eq stem n)).trans hrest'⟩

theorem op {o o' : Op} (h : o' = o.renumber names names') :
    Renumbers names names' (op target o) (op target o') := by
  intro n
  subst h
  refine ⟨_, _, op_eq target o n, ?_⟩
  rw [op_eq, Op.step_renumber, Target.scratch_renumber]
  rfl

/-- One piece of code behind the other. -/
theorem append {next next' : Compile (List Step)} (h : Renumbers names names' code code')
    (hnext : Renumbers names names' next next') :
    Renumbers names names' (do
        let first ← code
        let others ← next
        return first ++ others) (do
        let first ← code'
        let others ← next'
        return first ++ others) :=
  .bind h fun _ => .bind hnext fun _ => .pure List.map_append.symm

theorem ops {os os' : List Op} (h : os' = os.map (Op.renumber names names')) :
    Renumbers names names' (ops target os) (ops target os') := by
  subst h
  induction os with
  | nil => exact .pure rfl
  | cons o os ih => exact .append (.op rfl) ih

end Compile.Renumbers

/-! ## Programs -/

open Compile

section Programs

variable {target : Target} {names names' : List String}

theorem Expr.renumbers {e : Expr} (h : e.WellFormed) (hover : e.Over names) :
    Renumbers names names' (e.code target names) (e.code target names') := by
  induction e with
  | value n span => exact .op rfl
  | var name span =>
    refine .ops ?_
    show _ = [Op.loadVar (renumber names names' (names.idxOf name)), .pushResult]
    rw [renumber_idxOf hover]
  | neg a span ih => exact .append (ih h hover) (.ops rfl)
  | binary a op b span iha ihb =>
    obtain ⟨htarget, ha, hb⟩ := h
    by_cases hop : op = .assign
    · subst hop
      obtain ⟨name, place, rfl⟩ := htarget rfl
      refine .append (ihb hb hover.2) (.ops ?_)
      have hname : name ∈ names := hover.1
      show _ = [Op.popResult, .storeVar (renumber names names' (names.idxOf name)), .pushResult]
      rw [renumber_idxOf hname]
    · rw [Expr.code_binary hop, Expr.code_binary hop]
      refine .bind (iha ha hover.1) fun left => .bind (ihb hb hover.2) fun right =>
        .bind (.ops ?_) fun apply => .pure ?_
      · rw [List.map_cons, List.map_cons, operation_renumber]
        rfl
      · rw [List.map_append, List.map_append]

/-- The expression assigns to variables only, and its names have slots. -/
def Expr.Slotted (names : List String) (e : Expr) : Prop :=
  e.WellFormed ∧ e.Over names

theorem Expr.Slotted.renumbers {e : Expr} (h : e.Slotted names) :
    Renumbers names names' (e.code target names) (e.code target names') :=
  e.renumbers h.1 h.2

theorem clause_renumbers {e : Option Expr} (h : ∀ a ∈ e, a.Slotted names) :
    Renumbers names names' (clause target names e) (clause target names' e) := by
  cases e with
  | none => exact .pure rfl
  | some a => exact .append (h a rfl).renumbers (.op rfl)

theorem init_renumbers (target : Target) (init : Option Expr) : (∀ a ∈ init, a.Slotted names) →
    Renumbers names names'
      (match init with
        | some e => e.code target names
        | none => Compile.op target (.pushImm 0))
      (match init with
        | some e => e.code target names'
        | none => Compile.op target (.pushImm 0)) := by
  intro h
  cases init with
  | none => exact .op rfl
  | some a => exact (h a rfl).renumbers

theorem test_renumbers {cond : Expr} (h : cond.Slotted names) (exit : Label) :
    Renumbers names names' (test target names cond exit) (test target names' cond exit) :=
  .append h.renumbers (.ops rfl)

theorem body_renumbers {code code' : Compile (List Step)} (empty : Bool)
    (h : Renumbers names names' code code') :
    Renumbers names names' (body target empty code) (body target empty code') := by
  unfold body
  split
  · exact .op rfl
  · exact h

theorem loop_renumbers {cond : Expr} {code code' : Compile (List Step)} {update : Option Expr}
    (hcond : cond.Slotted names) (hbody : Renumbers names names' code code')
    (hupdate : ∀ a ∈ update, a.Slotted names) :
    Renumbers names names' (loop target names cond code update)
      (loop target names' cond code' update) := by
  refine .newLabel fun head => .newLabel fun exit => .bind (.op rfl) fun enter =>
    .bind (test_renumbers hcond exit) fun check => .bind hbody fun turn =>
    .bind (.op rfl) fun keep => .bind (clause_renumbers hupdate) fun next =>
    .bind (.ops rfl) fun leave => .pure ?_
  simp only [List.map_append]

mutual

theorem Stmt.renumbers {s : Stmt} (h : s.Each (Expr.Slotted names)) :
    Renumbers names names' (s.code target names) (s.code target names') := by
  cases s with
  | expr e span =>
    have hclause : ∀ a ∈ some e, a.Slotted names := by
      rintro a ⟨⟩
      exact h
    exact clause_renumbers hclause
  | block body span => exact body_renumbers _ (statements_renumber h)
  | ifThen cond body span =>
    refine .newLabel fun otherwise => .newLabel fun exit => .bind (test_renumbers h.1 otherwise)
      fun check => .bind (body_renumbers _ (statements_renumber h.2)) fun inner =>
      .bind (.ops rfl) fun leave => .pure ?_
    simp only [List.map_append]
  | whileLoop cond body span =>
    exact .append (.op rfl) (loop_renumbers h.1 (body_renumbers _ (statements_renumber h.2)) nofun)
  | forLoop init cond update body span =>
    obtain ⟨hinit, hcond, hupdate, hbody⟩ := h
    have hfirst : Renumbers names names' _ _ := init_renumbers target init hinit
    cases cond with
    | none =>
      have hzero : Renumbers names names' (Compile.ops target [.popResult, .loadZero])
          (Compile.ops target [.popResult, .loadZero]) := .ops rfl
      cases init <;> exact hfirst.append hzero
    | some cond =>
      have hturn : Renumbers names names'
          (Compile.body target body.isEmpty (statementsCode target names body))
          (Compile.body target body.isEmpty (statementsCode target names' body)) :=
        body_renumbers _ (statements_renumber hbody)
      cases init <;> exact hfirst.append (loop_renumbers (hcond cond rfl) hturn hupdate)

/-- The code of a program whose names have slots, and its code over other slots. -/
theorem statements_renumber {p : Program} (h : p.Each (Expr.Slotted names)) :
    Renumbers names names' (statementsCode target names p) (statementsCode target names' p) := by
  cases p with
  | nil => exact .pure rfl
  | cons s rest => exact .append (Stmt.renumbers h.1) (statements_renumber h.2)

end

end Programs

end Imp32
