import Imp32.Proofs.Compiler.Renumbering
import Imp32.Proofs.Findings

/-!
# Loops without a condition

The body and the update of a `for` without a condition never run. The check warns of each such loop,
wherever it stands, and what stands in it shows in no run and in no code but by the slots of its
names (`Program.dead_loops`). What carries it is the `live` tree, from which these parts are taken
out: the interpreter and the compiler do with it what they do with the whole tree.
-/

namespace Imp32

open Assembly

/-! ## Live trees -/

mutual

/-- The statement without what never runs. -/
def Stmt.live : Stmt → Stmt
  | .expr e span => .expr e span
  | .block body span => .block (liveAll body) span
  | .ifThen cond body span => .ifThen cond (liveAll body) span
  | .whileLoop cond body span => .whileLoop cond (liveAll body) span
  | .forLoop init none _ _ span => .forLoop init none none [] span
  | .forLoop init (some cond) update body span =>
    .forLoop init (some cond) update (liveAll body) span

/-- The program without what never runs. -/
def liveAll : Program → Program
  | [] => []
  | s :: rest => s.live :: liveAll rest

end

theorem isEmpty_liveAll (p : List Stmt) : (liveAll p).isEmpty = p.isEmpty := by
  cases p <;> rfl

mutual

theorem Stmt.exec_live (turns : Nat) (s : Stmt) : s.live.exec turns = s.exec turns := by
  cases s with
  | expr e span => rfl
  | block body span => exact execAll_live turns body 0
  | ifThen cond body span =>
    simp only [Stmt.live, Stmt.exec, execAll_live turns body 0]
  | whileLoop cond body span =>
    simp only [Stmt.live, Stmt.exec, execAll_live turns body 0]
  | forLoop init cond update body span =>
    cases cond with
    | none => rfl
    | some cond => simp only [Stmt.live, Stmt.exec, execAll_live turns body 0]

/-- What never runs does not show in a run. -/
theorem execAll_live (turns : Nat) (p : Program) :
    ∀ result, execAll turns (liveAll p) result = execAll turns p result := by
  intro result
  cases p with
  | nil => rfl
  | cons s rest =>
    simp only [liveAll, execAll, Stmt.exec_live turns s]
    exact congrArg (s.exec turns >>= ·) (funext (execAll_live turns rest))

end

section Code

variable {target : Target} {names : List String}

mutual

theorem Stmt.code_live (s : Stmt) : s.live.code target names = s.code target names := by
  cases s with
  | expr e span => rfl
  | block body span => simp only [Stmt.live, Stmt.code, isEmpty_liveAll, statementsCode_live body]
  | ifThen cond body span =>
    simp only [Stmt.live, Stmt.code, isEmpty_liveAll, statementsCode_live body]
  | whileLoop cond body span =>
    simp only [Stmt.live, Stmt.code, isEmpty_liveAll, statementsCode_live body]
  | forLoop init cond update body span =>
    cases cond with
    | none => rfl
    | some cond => simp only [Stmt.live, Stmt.code, isEmpty_liveAll, statementsCode_live body]

/-- What never runs has no code. -/
theorem statementsCode_live (p : Program) :
    statementsCode target names (liveAll p) = statementsCode target names p := by
  cases p with
  | nil => rfl
  | cons s rest => simp only [liveAll, statementsCode, Stmt.code_live s, statementsCode_live rest]

end

end Code

/-! ## Programs that are the same but for what never runs -/

/-- No run tells the programs apart, and their code is the same but for the slots: it differs where
the function is entered, since there may be more slots, and in the numbers of the slots. -/
structure Program.Alike (p q : Program) : Prop where
  runs : ∀ turns env, execAll turns p 0 env = execAll turns q 0 env
  code : ∀ target entry, ∃ e f body body' handlers,
    Emitter.empty.emitProgram target entry p = .ok e ∧
    Emitter.empty.emitProgram target entry q = .ok f ∧
    e.steps = (Op.entering entry p.slots.length).map (⟨·, []⟩) ++ body ++ [⟨.epilogue, []⟩] ++
      handlers ∧
    f.steps = (Op.entering entry q.slots.length).map (⟨·, []⟩) ++ body' ++ [⟨.epilogue, []⟩] ++
      handlers ∧
    body' = body.map (Step.renumber p.slots q.slots) ∧
    body = body'.map (Step.renumber q.slots p.slots) ∧
    (body'.flatMap target.lines).length = (body.flatMap target.lines).length

section Alike

variable {p q : Program}

/-- The names of a program that assigns to variables only have slots. -/
theorem Program.slotted (h : p.Each Expr.WellFormed) : p.Each (Expr.Slotted p.slots) :=
  Program.Each.and (fun _ => And.intro) p h (over_of_collectAll p (List.Subset.refl _))

/-- The code of one program is the code of the other over other slots. -/
theorem body_alike (target : Target) (hp : p.Each Expr.WellFormed) (hlive : liveAll p = liveAll q) :
    Compile.Renumbers p.slots q.slots
      (Compile.body target p.isEmpty (statementsCode target p.slots p))
      (Compile.body target q.isEmpty (statementsCode target q.slots q)) := by
  rw [← statementsCode_live q, ← hlive, statementsCode_live, ← isEmpty_liveAll q, ← hlive,
    isEmpty_liveAll]
  exact body_renumbers _ (statements_renumber (Program.slotted hp))

theorem Program.alike_of_live (hp : p.Each Expr.WellFormed) (hq : q.Each Expr.WellFormed)
    (hlive : liveAll p = liveAll q) : p.Alike q where
  runs turns env := by
    rw [← execAll_live turns p, hlive, execAll_live]
  code target entry := by
    obtain ⟨body, n, hbody, hbody'⟩ := body_alike target hp hlive 0
    obtain ⟨body₁, n₁, hbody₁, hback⟩ := body_alike target hq hlive.symm 0
    obtain ⟨rfl, rfl⟩ : body₁ = body.map (Step.renumber p.slots q.slots) ∧ n₁ = n := by
      rw [hbody'] at hbody₁
      cases hbody₁
      exact ⟨rfl, rfl⟩
    obtain ⟨e, he, hsteps⟩ := emitProgram_eq entry hbody
    obtain ⟨f, hf, hsteps'⟩ := emitProgram_eq entry hbody'
    refine ⟨e, f, body, _, _, he, hf, hsteps, ?_, rfl, ?_, ?_⟩
    · rw [hsteps', listingOf, kindsOf_renumber]
    · rw [hbody] at hback
      exact (EStateM.Result.ok.inj hback).1
    · simp only [List.length_flatMap, List.map_map]
      congr 1
      exact List.map_congr_left fun step _ => target.length_lines_renumber step

end Alike

/-! ## The warnings -/

/-- The warnings of loops are those of the loops without a condition, in their order. -/
theorem Program.filter_noCondition {p : Program} (h : p.Each Expr.WellFormed) {f : Findings}
    (hf : p.check = .ok f) :
    (f.diagnostics.filter fun d => d.code = "W300") = p.unconditional.map Check.noCondition := by
  obtain rfl := Except.ok.inj ((Program.check_eq h).symm.trans hf)
  have hloops : ∀ d ∈ p.unconditional.map Check.noCondition, decide (d.code = "W300") = true := by
    rintro d hd
    obtain ⟨span, -, rfl⟩ := List.mem_map.1 hd
    rfl
  have hmissing : ∀ reads : List (String × Span), ∀ d ∈ reads.map fun pair =>
      Check.neverAssigned pair.1 pair.2, ¬decide (d.code = "W300") = true := by
    rintro reads d hd
    obtain ⟨pair, -, rfl⟩ := List.mem_map.1 hd
    simp [Check.neverAssigned, Check.warning]
  unfold Findings.finish Findings.noting
  rw [List.filter_append, List.nil_append, List.filter_eq_self.2 hloops,
    List.filter_eq_nil_iff.2 (hmissing _), List.append_nil]

/-- There is one warning for each loop without a condition at any depth, and whatever stands in
their updates and bodies, the program is the same to run and to compile. -/
theorem Program.dead_loops {p : Program} (hp : p.Each Expr.WellFormed) :
    (∃ f, p.check = .ok f ∧ (f.diagnostics.filter fun d => d.code = "W300").length =
      p.statements.countP fun s => s.unconditional?.isSome) ∧
    ∀ q : Program, q.Each Expr.WellFormed → liveAll p = liveAll q → p.Alike q := by
  refine ⟨⟨_, Program.check_eq hp, ?_⟩, fun q hq => Program.alike_of_live hp hq⟩
  rw [Program.filter_noCondition hp (Program.check_eq hp), List.length_map, unconditional]
  exact List.length_filterMap_eq_countP

/-- `if (1) { for (x = 1; ; ) { } } w = x;` with other parts in the loop, among them another loop
and two names that have slots. -/
theorem Program.dead_loops_nested :
    let span := Span.none
    let around (update : Option Expr) (body : List Stmt) : Program :=
      [.ifThen (.value 1 span)
        [.forLoop (some (.binary (.var "x" span) .assign (.value 1 span) span)) none update body
          span] span,
       .expr (.binary (.var "w" span) .assign (.var "x" span) span) span]
    let p := around (some (.binary (.var "y" span) .assign (.var "z" span) span))
      [.expr (.binary (.value 1 span) .div (.value 0 span) span) span,
        .forLoop none none none [] span]
    let q := around none []
    p.Each Expr.WellFormed ∧ q.Each Expr.WellFormed ∧ liveAll p = liveAll q ∧
      p.slots = ["x", "y", "z", "w"] ∧ q.slots = ["x", "w"] ∧
      (∃ f, p.check = .ok f ∧ (f.diagnostics.filter fun d => d.code = "W300").length = 2) ∧
      p.Alike q := by
  intro span around p q
  have hp : p.Each Expr.WellFormed := by
    simp [p, around, Program.Each, Stmt.Each, Expr.WellFormed]
  have hq : q.Each Expr.WellFormed := by
    simp [q, around, Program.Each, Stmt.Each, Expr.WellFormed]
  obtain ⟨hwarned, halike⟩ := Program.dead_loops hp
  exact ⟨hp, hq, rfl, rfl, rfl, hwarned, halike q hq rfl⟩

end Imp32
