import Imp32.Proofs.Arithmetic
import Imp32.Proofs.Evaluation
import Imp32.Proofs.Nodes

/-!
# Wrapping once

An expression of sums, differences, products, negations and powers with literal exponents is a
polynomial in its variables, and has a value over the unbounded integers (`Expr.unbounded`). The
interpreter wraps at every operator. What it comes to is that value, wrapped once
(`Expr.eval_wrapsOnce`): wrapping keeps the residue modulo 2³², and the operators of a polynomial need
no more of their operands (`BinaryOp.IsRing.apply_wrap`).
-/

namespace Imp32

/-! ## Residues -/

namespace Word

theorem wrap_modEq (n : Int) : wrap n ≡ n [ZMOD modulus] :=
  Int.bmod_emod

/-- Integers with the same residue wrap to the same value. -/
theorem wrap_congr {a b : Int} (h : a ≡ b [ZMOD modulus]) : wrap a = wrap b := by
  rw [← Assembly.wrap_low a, ← Assembly.wrap_low b]
  exact congrArg wrap h

/-- A power that is wrapped at every factor is the power, wrapped once. -/
theorem power_eq_wrap (base : Int) (n : Nat) : power base n = wrap (base ^ n) := by
  induction n with
  | zero => rw [power_zero, pow_zero, wrap_of_inRange (by decide)]
  | succ n ih =>
    rw [power_succ, ih, pow_succ]
    exact wrap_congr ((wrap_modEq (base ^ n)).mul_right base)

end Word

/-! ## Polynomials -/

def BinaryOp.IsRing (op : BinaryOp) : Prop := op = .add ∨ op = .sub ∨ op = .mul

/-- The value of an operator over the unbounded integers. Only the operators of polynomials have
one. -/
def BinaryOp.unbounded (op : BinaryOp) (a b : Int) : Int :=
  match op with
  | .add => a + b
  | .sub => a - b
  | .mul => a * b
  | .pow => a ^ b.toNat
  | _ => 0

/-- The expression is made of words and variables by addition, subtraction, multiplication, negation
and powers with literal exponents that are not negative. -/
inductive Expr.Polynomial : Expr → Prop
  | value {n : Int} (span : Span) : Word.InRange n → Polynomial (.value n span)
  | var (name : String) (span : Span) : Polynomial (.var name span)
  | neg {a : Expr} (span : Span) : a.Polynomial → Polynomial (.neg a span)
  | ring {a b : Expr} {op : BinaryOp} (span : Span) : op.IsRing → a.Polynomial → b.Polynomial →
    Polynomial (.binary a op b span)
  | pow {a : Expr} {n : Int} (place span : Span) : a.Polynomial → 0 ≤ n →
    Polynomial (.binary a .pow (.value n place) span)

/-- The value over the unbounded integers, if the variables have these values. -/
def Expr.unbounded (vars : String → Int) : Expr → Int
  | .value n _ => n
  | .var name _ => vars name
  | .neg a _ => -a.unbounded vars
  | .binary a op b _ => op.unbounded (a.unbounded vars) (b.unbounded vars)

/-- The value of a variable, zero if it has none. -/
def Env.value (env : Env) (name : String) : Int :=
  (env.get? name).getD 0

def Env.HoldsWord (env : Env) (name : String) : Prop :=
  ∃ n, env.get? name = some n ∧ Word.InRange n

/-! ## Evaluation -/

section Evaluation

variable {env env' : Env} {a b e : Expr} {span : Span}

/-- A ring operator needs no more of its operands than their residues. -/
theorem BinaryOp.IsRing.apply_wrap {op : BinaryOp} (h : op.IsRing) (m n : Int) (span : Span) :
    op.apply (Word.wrap m) (Word.wrap n) span = .ok (Word.wrap (op.unbounded m n)) := by
  have hm := Word.wrap_modEq m
  have hn := Word.wrap_modEq n
  rcases h with rfl | rfl | rfl
  · exact congrArg Except.ok (Word.wrap_congr (hm.add hn))
  · exact congrArg Except.ok (Word.wrap_congr (hm.sub hn))
  · exact congrArg Except.ok (Word.wrap_congr (hm.mul hn))

theorem BinaryOp.apply_pow_wrap (m : Int) {n : Int} (hn : 0 ≤ n) (span : Span) :
    BinaryOp.pow.apply (Word.wrap m) n span = .ok (Word.wrap (BinaryOp.pow.unbounded m n)) := by
  have hpower : BinaryOp.pow.apply (Word.wrap m) n span =
      .ok (Word.power (Word.wrap m) n.toNat) := if_neg (Int.not_lt.2 hn)
  rw [hpower, Word.power_eq_wrap]
  exact congrArg Except.ok (Word.wrap_congr ((Word.wrap_modEq m).pow n.toNat))

/-- An operator whose operands have values, and which has a value for them. -/
theorem Expr.eval_binary_of_ok {op : BinaryOp} {m n r : Int} {env₁ : Env} (hop : op ≠ .assign)
    (ha : a.eval env = .ok m env₁) (hb : b.eval env₁ = .ok n env')
    (hr : op.apply m n span = .ok r) : (Expr.binary a op b span).eval env = .ok r env' := by
  rw [Expr.eval_binary hop, bind_of_ok ha, bind_of_ok hb, hr]
  rfl

/-- A variable that is bound to a word is worth that word. -/
theorem Expr.eval_var_of_holdsWord {name : String} (h : env.HoldsWord name) :
    (Expr.var name span).eval env = .ok (Word.wrap (env.value name)) env := by
  obtain ⟨n, hn, hrange⟩ := h
  unfold Env.value
  rw [Expr.eval_var, hn, Option.getD_some, Word.wrap_of_inRange hrange]

/-- By induction on the polynomial, whose variables are among those of the whole expression. -/
theorem Expr.Polynomial.eval_eq (he : e.Polynomial) {found : List Expr}
    (hfound : ∀ name, Mentions found name → env.HoldsWord name) (hparts : e.parts ⊆ found) :
    e.eval env = .ok (Word.wrap (e.unbounded env.value)) env := by
  induction he with
  | @value n span hn =>
    show EStateM.Result.ok n env = .ok (Word.wrap n) env
    rw [Word.wrap_of_inRange hn]
  | var name span => exact eval_var_of_holdsWord (hfound name ⟨span, hparts List.mem_cons_self⟩)
  | @neg a span _ ih =>
    have ha := ih (List.cons_subset.1 hparts).2
    have hwrap := Word.wrap_congr (Word.wrap_modEq (a.unbounded env.value)).neg
    rw [Expr.unbounded, ← hwrap]
    exact bind_of_ok ha
  | ring span hop _ _ iha ihb =>
    obtain ⟨ha, hb⟩ := List.append_subset.1 (List.cons_subset.1 hparts).2
    refine eval_binary_of_ok ?_ (iha ha) (ihb hb) (hop.apply_wrap _ _ span)
    rintro rfl
    simp [BinaryOp.IsRing] at hop
  | pow place span _ hn iha =>
    obtain ⟨ha, -⟩ := List.append_subset.1 (List.cons_subset.1 hparts).2
    exact eval_binary_of_ok (by decide) (iha ha) rfl (BinaryOp.apply_pow_wrap _ hn span)

end Evaluation

/-- A polynomial whose variables are bound to words has its value over the unbounded integers,
wrapped once. -/
theorem Expr.eval_wrapsOnce {e : Expr} {env : Env} (he : e.Polynomial)
    (hvars : ∀ name, Mentions e.parts name → env.HoldsWord name) :
    e.eval env = .ok (Word.wrap (e.unbounded env.value)) env :=
  he.eval_eq hvars (List.Subset.refl _)

/-- `-x ^ 3 * (y - -2147483648)` overflows at every operator. -/
theorem Expr.eval_wrapsOnce_overflows :
    let span := Span.mk 0 0
    let env : Env := [("x", 2147483647), ("y", 2147483646)]
    let e : Expr := .binary (.neg (.binary (.var "x" span) .pow (.value 3 span) span) span) .mul
      (.binary (.var "y" span) .sub (.value (-2147483648) span) span) span
    e.Polynomial ∧ (∀ name, Mentions e.parts name → env.HoldsWord name) ∧
      e.unbounded env.value = -(2147483647 ^ 3 * 4294967294) ∧ e.eval env = .ok (-2) env := by
  intro span env e
  have he : e.Polynomial :=
    .ring span (.inr (.inr rfl)) (.neg span (.pow span span (.var "x" span) (by decide)))
      (.ring span (.inr (.inl rfl)) (.var "y" span) (.value span (by decide)))
  have hvars : ∀ name, Mentions e.parts name → env.HoldsWord name := by
    rintro name ⟨place, hmem⟩
    have hmem : (name = "x" ∧ place = span) ∨ (name = "y" ∧ place = span) := by
      simpa [e, Expr.parts] using hmem
    have hname : name = "x" ∨ name = "y" := hmem.imp And.left And.left
    rcases hname with rfl | rfl
    · exact ⟨2147483647, rfl, by decide⟩
    · exact ⟨2147483646, rfl, by decide⟩
  exact ⟨he, hvars, rfl, eval_wrapsOnce he hvars⟩

end Imp32
