import Imp32.Proofs.Compiler.Expressions
import Imp32.Proofs.Stack.Shape

/-!
# The depth of compiled code

Whatever names have slots, the code of an expression pushes one operand (`Expr.code_checked`) and
the code of a statement leaves the operands as many as they were (`Stmt.code_checked`). Every label
that the code branches to is set in it at the depth of the branch. The proof is by induction on the
program, one case for each form, for any target whose rules cover the operations (`Rules.Covers`).
-/

namespace Imp32

open Assembly

namespace Assembly

/-- From which shapes to which ones the operations of compiled code lead. Branches go to labels
outside, which are set at these depths. -/
inductive Op.Flow (out : List (Label × Int)) : Op → Shape → Shape → Prop
  | pushImm {n : Int} {d : Nat} {k : Known} (h : k.Idle) : Flow out (.pushImm n) ⟨d, k⟩ ⟨d + 1, .word⟩
  | loadZero {d : Nat} {k : Known} (h : k.Idle) : Flow out .loadZero ⟨d, k⟩ ⟨d, .word⟩
  | loadVar {slot : Int} {d : Nat} {k : Known} (h : k.Idle) :
    Flow out (.loadVar slot) ⟨d, k⟩ ⟨d, .word⟩
  | pushResult {d : Nat} : Flow out .pushResult ⟨d, .word⟩ ⟨d + 1, .word⟩
  | popResult {d : Nat} : Flow out .popResult ⟨d + 1, .word⟩ ⟨d, .word⟩
  | popOperands {d : Nat} : Flow out .popOperands ⟨d + 2, .word⟩ ⟨d, .word⟩
  | storeTop {d : Nat} : Flow out .storeTop ⟨d + 1, .word⟩ ⟨d + 1, .word⟩
  | storeVar {slot : Int} {d : Nat} : Flow out (.storeVar slot) ⟨d, .word⟩ ⟨d, .word⟩
  | operation {op : BinaryOp} {d : Nat} (h : op ≠ .assign) :
    Flow out (Compile.operation op) ⟨d, .word⟩ ⟨d, .word⟩
  | negate {d : Nat} : Flow out .negate ⟨d, .word⟩ ⟨d, .word⟩
  | branch {l : Label} {d : Nat} (hl : l.isTrap = false) (h : (l, (d : Int)) ∈ out) :
    Flow out (.branch l) ⟨d, .word⟩ ⟨d, .word⟩
  | branchIfNotPositive {l : Label} {d : Nat} (hl : l.isTrap = false) (h : (l, (d : Int)) ∈ out) :
    Flow out (.branchIfNotPositive l) ⟨d, .word⟩ ⟨d, .word⟩
  | label {l : Label} {d : Nat} : Flow out (.label l) ⟨d, .word⟩ ⟨d, .word⟩

/-- The flows of operations compose. -/
inductive Op.Flows (out : List (Label × Int)) : List Op → Shape → Shape → Prop
  | nil (a : Shape) : Flows out [] a a
  | cons {o : Op} {rest : List Op} {a b c : Shape} :
    o.Flow out a b → Flows out rest b c → Flows out (o :: rest) a c

/-- The rules cover the expansions of a target: an expansion leads to where its operation does. -/
structure Rules.Covers {Instr : Type} {net : Instr → Int} (r : Rules net) (target : Target)
    (expand : Step → List (Line Instr)) : Prop where
  checked : ∀ {out : List (Label × Int)} {o : Op} {a b : Shape}, o.Flow out a b →
    ∀ n, r.Checked out (expand (o.step target n)) a b
  label : ∀ l, expand ⟨.label l, []⟩ = [.label l]

/-- Code of a target that compiles leads from one shape to another. -/
def Rules.Leads {Instr : Type} {net : Instr → Int} (r : Rules net)
    (expand : Step → List (Line Instr)) (out : List (Label × Int)) (code : Compile (List Step))
    (a b : Shape) : Prop :=
  ∀ n steps n', code n = .ok steps n' → r.Checked out (steps.flatMap expand) a b

end Assembly

section Covered

variable {Instr : Type} {net : Instr → Int} {r : Rules net} {target : Target}
  {expand : Step → List (Line Instr)} {out : List (Label × Int)} {a b c : Shape}
  {names : List String}

namespace Assembly.Rules

namespace Leads

variable {first second : Compile (List Step)}

theorem mono {out' : List (Label × Int)} (h : r.Leads expand out first a b) (hout : out ⊆ out') :
    r.Leads expand out' first a b :=
  fun n steps n' hcode => (h n steps n' hcode).mono hout

theorem append (h : r.Leads expand out first a b) (h' : r.Leads expand out second b c) :
    r.Leads expand out (do
      let x ← first
      let y ← second
      return x ++ y) a c := by
  intro n steps n' hcode
  obtain ⟨x, n₁, hx, hcode⟩ := bind_eq_ok.1 hcode
  obtain ⟨y, n₂, hy, hcode⟩ := bind_eq_ok.1 hcode
  obtain ⟨rfl, rfl⟩ := pure_eq_ok.1 hcode
  rw [List.flatMap_append]
  exact (h n x n₁ hx).append (h' n₁ y n₂ hy)

end Leads

variable (hr : r.Covers target expand)

include hr

theorem Covers.op {o : Op} (h : o.Flow out a b) :
    r.Leads expand out (Compile.op target o) a b := by
  intro n steps n' hcode
  rw [Compile.op_eq] at hcode
  cases hcode
  rw [List.flatMap_singleton]
  exact hr.checked h n

theorem Covers.ops {os : List Op} (h : Op.Flows out os a b) :
    r.Leads expand out (Compile.ops target os) a b := by
  induction h with
  | nil a =>
    intro n steps n' hcode
    obtain ⟨rfl, rfl⟩ := pure_eq_ok.1 hcode
    exact .nil a
  | cons hflow _ ih => exact (hr.op hflow).append ih

theorem Covers.plain {o : Op} (h : o.Flow out a b) (ho : o.Plain) :
    r.Checked out (expand ⟨o, []⟩) a b := by
  have hstep := hr.checked h 0
  rwa [step_of_plain ho] at hstep

end Assembly.Rules

variable (hr : r.Covers target expand)

include hr

/-! ## Expressions -/

/-- The code of an expression pushes one operand. -/
theorem Expr.code_checked (e : Expr) {d : Nat} {k : Known} (hk : k.Idle) :
    r.Leads expand [] (e.code target names) ⟨d, k⟩ ⟨d + 1, .word⟩ := by
  have hword : Known.Idle .word := .inr rfl
  induction e generalizing d k with
  | value n span => exact hr.op (.pushImm hk)
  | var name span => exact hr.ops (.cons (.loadVar hk) (.cons .pushResult (.nil _)))
  | neg a span ih =>
    exact (ih hk).append (hr.ops (.cons .popResult (.cons .negate (.cons .pushResult (.nil _)))))
  | binary a op b span iha ihb =>
    by_cases hop : op = .assign
    · subst hop
      intro n steps n' hcode
      obtain ⟨right, n₁, hright, hcode⟩ := bind_eq_ok.1 hcode
      cases a with
      | var name span' =>
        obtain ⟨store, n₂, hstore, hcode⟩ := bind_eq_ok.1 hcode
        obtain ⟨rfl, rfl⟩ := pure_eq_ok.1 hcode
        rw [List.flatMap_append]
        exact (ihb hk n right n₁ hright).append
          (hr.ops (.cons .popResult (.cons .storeVar (.cons .pushResult (.nil _)))) n₁ store n₂ hstore)
      | _ => cases hcode
    · rw [Expr.code_binary hop]
      intro n steps n' hcode
      obtain ⟨left, n₁, hleft, hcode⟩ := bind_eq_ok.1 hcode
      obtain ⟨right, n₂, hright, hcode⟩ := bind_eq_ok.1 hcode
      obtain ⟨apply, n₃, happly, hcode⟩ := bind_eq_ok.1 hcode
      obtain ⟨rfl, rfl⟩ := pure_eq_ok.1 hcode
      rw [List.flatMap_append, List.flatMap_append]
      exact ((iha hk n left n₁ hleft).append (ihb hword n₁ right n₂ hright)).append
        (hr.ops (.cons .popOperands (.cons (.operation hop) (.cons .pushResult (.nil _)))) n₂ apply
          n₃ happly)

theorem clause_checked (e : Option Expr) (d : Nat) :
    r.Leads expand [] (Compile.clause target names e) ⟨d, .word⟩ ⟨d, .word⟩ := by
  cases e with
  | none =>
    intro n steps n' hcode
    obtain ⟨rfl, rfl⟩ := pure_eq_ok.1 hcode
    exact .nil _
  | some e => exact (e.code_checked hr (.inr rfl)).append (hr.op .popResult)

/-- A test leaves for a label outside at the depth in front of it. -/
theorem test_checked (cond : Expr) {exit : Label} {d : Nat} {k : Known} (hk : k.Idle)
    (hexit : exit.isTrap = false) (hout : (exit, (d : Int)) ∈ out) :
    r.Leads expand out (Compile.test target names cond exit) ⟨d, k⟩ ⟨d, .word⟩ :=
  ((cond.code_checked hr hk).mono (List.nil_subset out)).append
    (hr.ops (.cons .popResult (.cons (.branchIfNotPositive hexit hout) (.nil _))))

/-! ## Statements -/

/-- A loop takes the value of its last turn off the operands. Its head and its exit are set with
this value on top. -/
theorem loop_checked (cond : Expr) {body : Compile (List Step)} (update : Option Expr) {d : Nat}
    (hbody : r.Leads expand [] body ⟨d + 1, .word⟩ ⟨d + 1, .word⟩) :
    r.Leads expand [] (Compile.loop target names cond body update) ⟨d + 1, .word⟩ ⟨d, .word⟩ := by
  intro n steps n' hcode
  obtain ⟨head, n₁, hhead, hcode⟩ := bind_eq_ok.1 hcode
  obtain ⟨exit, n₂, hexit, hcode⟩ := bind_eq_ok.1 hcode
  obtain ⟨enter, n₃, henter, hcode⟩ := bind_eq_ok.1 hcode
  obtain ⟨check, n₄, hcheck, hcode⟩ := bind_eq_ok.1 hcode
  obtain ⟨turn, n₅, hturn, hcode⟩ := bind_eq_ok.1 hcode
  obtain ⟨keep, n₆, hkeep, hcode⟩ := bind_eq_ok.1 hcode
  obtain ⟨next, n₇, hnext, hcode⟩ := bind_eq_ok.1 hcode
  obtain ⟨leave, n₈, hleave, hcode⟩ := bind_eq_ok.1 hcode
  obtain ⟨rfl, rfl⟩ := pure_eq_ok.1 hcode
  have htrap : head.isTrap = false ∧ exit.isTrap = false := by
    cases hhead
    cases hexit
    exact ⟨rfl, rfl⟩
  rw [Compile.op_plain (o := .label head) trivial] at henter
  cases henter
  rw [Compile.ops_plain (by simp [Op.Plain])] at hleave
  cases hleave
  let out : List (Label × Int) := [(head, (d + 1 : Nat)), (exit, (d + 1 : Nat))]
  have hnil : ([] : List (Label × Int)) ⊆ out := List.nil_subset out
  have htest : r.Checked out (check.flatMap expand) ⟨d + 1, .word⟩ ⟨d + 1, .word⟩ :=
    test_checked hr cond (.inr rfl) htrap.2 (by simp [out]) _ check n₄ hcheck
  have hinside := (((Rules.Checked.label (l := head) htest).append
    ((hbody n₄ turn n₅ hturn).mono hnil)).append (hr.op .storeTop n₅ keep n₆ hkeep)).append
    ((clause_checked hr update (d + 1) n₆ next n₇ hnext).mono hnil)
  have hback : r.Checked out (expand ⟨.branch head, []⟩) ⟨d + 1, .word⟩ ⟨d + 1, .word⟩ :=
    hr.plain (.branch htrap.1 (by simp [out])) trivial
  have hpop : r.Checked out (expand ⟨.popResult, []⟩) ⟨d + 1, .word⟩ ⟨d, .word⟩ :=
    hr.plain .popResult trivial
  have hwhole := (hinside.append (hback.append (.label (l := exit) hpop))).close
    fun mark hmark => by
      rcases List.mem_cons.1 hmark with rfl | hmark
      · exact mem_label head (d + 1 : Nat) _
      · cases List.mem_singleton.1 hmark
        exact hinside.mem_right (hback.mem_right (mem_label exit (d + 1 : Nat) _))
  simpa [hr.label] using hwhole

/-- Both branches of a conditional leave the operands alone. -/
theorem ifThen_checked (cond : Expr) (body : List Stmt) (span : Span) {d : Nat} {k : Known}
    (hk : k.Idle) (hbody : r.Leads expand [] (Compile.body target body.isEmpty
      (statementsCode target names body)) ⟨d, .word⟩ ⟨d, .word⟩) :
    r.Leads expand [] ((Stmt.ifThen cond body span).code target names) ⟨d, k⟩ ⟨d, .word⟩ := by
  intro n steps n' hcode
  obtain ⟨otherwise, n₁, hotherwise, hcode⟩ := bind_eq_ok.1 hcode
  obtain ⟨exit, n₂, hexit, hcode⟩ := bind_eq_ok.1 hcode
  obtain ⟨check, n₃, hcheck, hcode⟩ := bind_eq_ok.1 hcode
  obtain ⟨inner, n₄, hinner, hcode⟩ := bind_eq_ok.1 hcode
  obtain ⟨leave, n₅, hleave, hcode⟩ := bind_eq_ok.1 hcode
  obtain ⟨rfl, rfl⟩ := pure_eq_ok.1 hcode
  have htrap : otherwise.isTrap = false ∧ exit.isTrap = false := by
    cases hotherwise
    cases hexit
    exact ⟨rfl, rfl⟩
  rw [Compile.ops_plain (by simp [Op.Plain])] at hleave
  cases hleave
  let out : List (Label × Int) := [(otherwise, (d : Nat)), (exit, (d : Nat))]
  have htest : r.Checked out (check.flatMap expand) ⟨d, k⟩ ⟨d, .word⟩ :=
    test_checked hr cond hk htrap.1 (by simp [out]) n₂ check n₃ hcheck
  have hinside := htest.append ((hbody n₃ inner n₄ hinner).mono (List.nil_subset out))
  have hskip : r.Checked out (expand ⟨.branch exit, []⟩) ⟨d, .word⟩ ⟨d, .word⟩ :=
    hr.plain (.branch htrap.2 (by simp [out])) trivial
  have hzero : r.Checked out (expand ⟨.loadZero, []⟩) ⟨d, .word⟩ ⟨d, .word⟩ :=
    hr.plain (.loadZero (.inr rfl)) trivial
  have hlast := Rules.Checked.label (l := otherwise) (hzero.append (.label (l := exit) (.nil _)))
  have hwhole := (hinside.append (hskip.append hlast)).close fun mark hmark => by
    rcases List.mem_cons.1 hmark with rfl | hmark
    · exact hinside.mem_right (hskip.mem_right (mem_label otherwise (d : Nat) _))
    · cases List.mem_singleton.1 hmark
      refine hinside.mem_right (hskip.mem_right (List.mem_cons_of_mem _ ?_))
      rw [show Line.net net (.label otherwise) = 0 from rfl, Int.add_zero]
      exact hzero.mem_right (mem_label exit (d : Nat) _)
  simpa [hr.label] using hwhole

/-- The code of a body, whatever the result register holds if there are statements. -/
theorem body_checked {p : List Stmt} {d : Nat} {k : Known} (hk : k.Idle)
    (h : p ≠ [] → r.Leads expand [] (statementsCode target names p) ⟨d, k⟩ ⟨d, .word⟩) :
    r.Leads expand [] (Compile.body target p.isEmpty (statementsCode target names p)) ⟨d, k⟩
      ⟨d, .word⟩ := by
  cases p with
  | nil => exact hr.op (.loadZero hk)
  | cons s rest => exact h (List.cons_ne_nil s rest)

theorem init_checked (init : Option Expr) {d : Nat} {k : Known} (hk : k.Idle) :
    r.Leads expand [] (match init with
      | some e => e.code target names
      | none => Compile.op target (.pushImm 0)) ⟨d, k⟩ ⟨d + 1, .word⟩ := by
  cases init with
  | none => exact hr.op (.pushImm hk)
  | some e => exact e.code_checked hr hk

omit hr

mutual

/-- The code of a statement leaves the operands as many as they were. -/
theorem Stmt.code_checked (hr : r.Covers target expand) (s : Stmt) {d : Nat} {k : Known} (hk : k.Idle) :
    r.Leads expand [] (s.code target names) ⟨d, k⟩ ⟨d, .word⟩ := by
  cases s with
  | expr e span => exact (e.code_checked hr hk).append (hr.op .popResult)
  | block body span => exact body_checked hr hk fun h => statementsCode_checked hr body hk h
  | ifThen cond body span =>
    exact ifThen_checked hr cond body span hk
      (body_checked hr (.inr rfl) fun h => statementsCode_checked hr body (.inr rfl) h)
  | whileLoop cond body span =>
    have hbody := body_checked hr (d := d + 1) (.inr rfl) fun h =>
      statementsCode_checked hr body (.inr rfl) h
    exact (hr.op (.pushImm hk)).append (loop_checked hr cond none hbody)
  | forLoop init cond update body span =>
    have hfirst : r.Leads expand [] (match init with
      | some e => e.code target names
      | none => Compile.op target (.pushImm 0)) ⟨d, k⟩ ⟨d + 1, .word⟩ := init_checked hr init hk
    cases cond with
    | none =>
      have hzero := hfirst.append (hr.ops (.cons .popResult (.cons (.loadZero (.inr rfl)) (.nil _))))
      cases init <;> exact hzero
    | some cond =>
      have hbody := body_checked hr (d := d + 1) (.inr rfl) fun h =>
        statementsCode_checked hr body (.inr rfl) h
      cases init <;> exact hfirst.append (loop_checked hr cond update hbody)

theorem statementsCode_checked (hr : r.Covers target expand) (p : List Stmt) {d : Nat} {k : Known} (hk : k.Idle)
    (h : p ≠ []) : r.Leads expand [] (statementsCode target names p) ⟨d, k⟩ ⟨d, .word⟩ := by
  cases p with
  | nil => exact absurd rfl h
  | cons s rest =>
    refine (Stmt.code_checked hr s hk).append ?_
    cases rest with
    | nil =>
      intro n steps n' hcode
      obtain ⟨rfl, rfl⟩ := pure_eq_ok.1 hcode
      exact .nil _
    | cons s' rest => exact statementsCode_checked hr (s' :: rest) (.inr rfl) (List.cons_ne_nil _ _)

end

end Covered

end Imp32
