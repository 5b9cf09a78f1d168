import Imp32.Proofs.Compiler.Linking
import Imp32.Proofs.Evaluation
import Imp32.Proofs.Findings
import Imp32.Proofs.RoundTrip

/-!
# What can be done with a program that was read

The checker, the printer, the compiler and the interpreter take trees as they are. A program that
was read from a text is one that none of them can fail on (`parse_usable`): what carries it is that
such a program is proper, and that a run fails at an expression of the program only.

How deep the calls of a traversal may be nested is left out: a tree of any height is traversed here.
What is known of heights is apart from this, in `Imp32.Proofs.Heights`.
-/

namespace Imp32

open Assembly

/-! ## Compiling -/

/-- The program compiles, no operation of its code is refused, and each of its handlers has a
code. -/
def Program.EmitsWhole (target : Target) (entry : String) (p : Program) : Prop :=
  ∃ steps labels emitted, p.code target entry 0 = .ok steps labels ∧
    (∀ step ∈ steps, target.refusal? step.op = none) ∧
    Emitter.emitHandlers { Emitter.empty.append steps with labels := labels } = (none, emitted) ∧
    p.compile target entry = .ok (emitted.output target)

theorem refusal?_of_inner {target : Target} {slots : Nat} {op : Op} (h : op.Inner slots) :
    target.refusal? op = none := by
  cases op with
  | arith op => cases target <;> cases op <;> first | rfl | cases h
  | compare op => cases target <;> cases op <;> first | rfl | cases h
  | _ => cases target <;> rfl

namespace Assembly.Emitter

theorem handlers_complete {kinds : List String}
    (h : ∀ kind ∈ kinds, ∃ code, trapCode? kind = some code) : (handlers kinds).2 = none := by
  induction kinds with
  | nil => rfl
  | cons kind kinds ih =>
    obtain ⟨hkind, hkinds⟩ := List.forall_mem_cons.1 h
    obtain ⟨code, hcode⟩ := hkind
    simp only [handlers, hcode]
    exact ih hkinds

/-- Whatever steps are appended, each kind of failure that they use has a code. -/
theorem traps_coded (steps : List Step) :
    ∀ kind ∈ (Emitter.empty.append steps).traps, ∃ code, trapCode? kind = some code := by
  intro kind hkind
  rcases mem_foldl_addNew.1 hkind with h | h
  · cases h
  · obtain ⟨step, -, hmem⟩ := List.mem_flatMap.1 h
    exact trapCode_of_mem_trapKinds hmem

end Assembly.Emitter

/-- The code of a proper program, of which nothing is refused. -/
theorem Program.exists_code (target : Target) (entry : String) {p : Program} (h : p.Proper) :
    ∃ steps labels, p.code target entry 0 = .ok steps labels ∧
      ∀ step ∈ steps, target.refusal? step.op = none := by
  obtain ⟨body, n, hbody, hemitted, -⟩ := exists_body target h
  refine ⟨_, n, code_eq entry hbody, ?_⟩
  intro step hstep
  rcases List.mem_append.1 hstep with hstep | hstep
  · rcases List.mem_append.1 hstep with hstep | hstep
    · obtain ⟨o, ho, rfl⟩ := List.mem_map.1 hstep
      simp only [Op.entering, List.mem_cons, List.not_mem_nil, or_false] at ho
      rcases ho with rfl | rfl | rfl <;> cases target <;> rfl
    · exact refusal?_of_inner (hemitted.inner step hstep)
  · rw [List.mem_singleton.1 hstep]
    cases target <;> rfl

theorem Program.emitsWhole (target : Target) (entry : String) {p : Program} (h : p.Proper) :
    p.EmitsWhole target entry := by
  obtain ⟨steps, labels, hcode, hrefusal⟩ := exists_code target entry h
  refine ⟨steps, labels, _, hcode, hrefusal,
    Prod.ext (Emitter.handlers_complete (Emitter.traps_coded steps)) rfl, ?_⟩
  unfold Program.compile Emitter.emitProgram
  rw [show Emitter.empty.labels = 0 from rfl, hcode]
  rfl

/-! ## Running -/

/-- Why a run of the program may have no value: it ran out of turns, or an expression of the program
failed in a way that such an expression can, and the error has its place. -/
inductive Program.MayHalt (p : Program) : Halt → Prop
  | outOfTurns : p.MayHalt .outOfTurns
  | divisionByZero {a b : Expr} {span : Span} :
    .binary a .div b span ∈ p.parts → p.MayHalt (.error (.divisionByZero (some span)))
  | negativeExponent {a b : Expr} {span : Span} {n : Int} : n < 0 →
    .binary a .pow b span ∈ p.parts → p.MayHalt (.error (.negativeExponent n (some span)))
  | unboundVariable {name : String} {span : Span} :
    .var name span ∈ p.parts → p.MayHalt (.error (.unboundVariable name (some span)))

/-- Any values and variables, and the halts that may be. -/
def Guarantee.mayHalt (p : Program) : Guarantee where
  value _ := True
  env _ := True
  halt := p.MayHalt

section Running

variable {p : Program}

theorem Guarantee.mayHalt_sound : (mayHalt p).Sound where
  zero := trivial
  wrap _ := trivial
  apply _ := trivial
  get _ _ := trivial
  outOfTurns := .outOfTurns

/-- An operator of the program fails in a way that its expression can. -/
theorem Program.mayHalt_of_apply {a b : Expr} {op : BinaryOp} {span : Span} {m n : Int}
    {e : EvalError} (hop : op ≠ .assign) (hmem : .binary a op b span ∈ p.parts)
    (h : op.apply m n span = .error e) : p.MayHalt (.error e) := by
  cases op with
  | div =>
    simp only [BinaryOp.apply] at h
    split at h
    · cases h
      exact .divisionByZero hmem
    · cases h
  | pow =>
    simp only [BinaryOp.apply] at h
    split at h
    · rename_i hn
      cases h
      exact .negativeExponent hn hmem
    · cases h
  | assign => exact absurd rfl hop
  | _ => cases h

theorem Expr.meets_mayHalt {e : Expr} (h : e.WellFormed) (hparts : e.parts ⊆ p.parts) :
    e.Meets (.mayHalt p) := by
  induction e with
  | value n span => trivial
  | var name span => exact .unboundVariable (hparts (Expr.mem_parts _))
  | neg a span ih => exact ih h (List.cons_subset.1 hparts).2
  | binary a op b span iha ihb =>
    obtain ⟨htarget, ha, hb⟩ := h
    obtain ⟨hself, hboth⟩ := List.cons_subset.1 hparts
    obtain ⟨hpa, hpb⟩ := List.append_subset.1 hboth
    unfold Expr.Meets
    split
    next hop =>
      obtain ⟨name, place, rfl⟩ := htarget hop
      exact ⟨ihb hb hpb, fun _ _ _ _ => trivial⟩
    next hop =>
      exact ⟨iha ha hpa, ihb hb hpb, fun m n e he => Program.mayHalt_of_apply hop hself he⟩

/-- From whatever variables, a proper program has a value or halts for a reason that is found in
it. -/
theorem Program.exec_allowed (h : p.Proper) (turns : Nat) (env : Env) :
    (Guarantee.mayHalt p).Allows (execAll turns p 0 env) := by
  have heach : p.Each (Expr.Meets (.mayHalt p)) :=
    Program.Each.and (fun _ he hparts => Expr.meets_mayHalt he.wellFormed hparts) p h
      (Program.each_parts (List.Subset.refl _))
  exact (keepsAll Guarantee.mayHalt_sound turns heach 0 trivial env trivial).1

theorem Program.eval_allowed (h : p.Proper) (turns : Nat) :
    (Guarantee.mayHalt p).Allows (p.eval turns) :=
  exec_allowed h turns []

end Running

/-! ## All uses -/

/-- Nothing that is done with the program goes wrong. -/
structure Program.Usable (p : Program) : Prop where
  /-- Assignments are to variables, literals are from 0 to 2³¹ - 1, names are no keywords. -/
  proper : p.Proper
  checks : ∃ f, p.check = .ok f
  /-- The layout has the lexemes of the program. -/
  prints : ∃ ts, tokens p.print = .ok ts ∧ ts.map Token.lexeme = statementLexemes p
  compiles : ∀ name ∈ ["arm64", "aarch64", "x86_64", "amd64"], ∃ target,
    Target.ofName? name = some target ∧ ∀ entry, p.EmitsWhole target entry
  runs : ∀ turns, (∃ v env, p.eval turns = .ok v env) ∨
    ∃ halt env, p.eval turns = .error halt env ∧ p.MayHalt halt

/-- A program that was read from a text can be checked, printed, compiled and run. -/
theorem parse_usable {source : String} {limit : Int} {p : Program}
    (h : Program.parse source limit = .ok p) : p.Usable where
  proper := parse_proper h
  checks := Program.check_ok (parse_proper h)
  prints := tokens_print (parse_proper h)
  compiles name hname := by
    have htarget : ∃ target, Target.ofName? name = some target := by
      simp only [List.mem_cons, List.not_mem_nil, or_false] at hname
      rcases hname with rfl | rfl | rfl | rfl <;> exact ⟨_, rfl⟩
    obtain ⟨target, htarget⟩ := htarget
    exact ⟨target, htarget, fun entry => Program.emitsWhole target entry (parse_proper h)⟩
  runs turns := by
    have hallowed := Program.eval_allowed (parse_proper h) turns
    cases hrun : p.eval turns with
    | ok v env => exact .inl ⟨v, env, rfl⟩
    | error halt env =>
      rw [hrun] at hallowed
      exact .inr ⟨halt, env, rfl, hallowed.1⟩

/-- A program that has no value, since it divides by zero. -/
theorem parse_usable_quotient : ∃ p, Program.parse "x = 1 / 0;" 3 = .ok p ∧ p.Usable ∧
    p.parts.map Expr.span = [⟨0, 9⟩, ⟨0, 1⟩, ⟨4, 9⟩, ⟨4, 5⟩, ⟨8, 9⟩] ∧
    EStateM.run' (execAll 0 p 0) [] = none := by
  have hread : (Program.parse "x = 1 / 0;" 3).toOption.map
      (fun p => (p.parts.map Expr.span, EStateM.run' (execAll 0 p 0) [])) =
        some ([⟨0, 9⟩, ⟨0, 1⟩, ⟨4, 9⟩, ⟨4, 5⟩, ⟨8, 9⟩], none) := by decide +kernel
  cases h : Program.parse "x = 1 / 0;" 3 with
  | error e =>
    rw [h] at hread
    cases hread
  | ok p =>
    rw [h] at hread
    obtain ⟨hparts, hvalue⟩ := Prod.mk.inj (Option.some.inj hread)
    exact ⟨p, rfl, parse_usable h, hparts, hvalue⟩

end Imp32
