import Imp32.Proofs.Nesting
import Imp32.Proofs.Nodes

/-!
# Heights of trees under a limit of nesting

The limit of nesting counts what the reader enters: parentheses, blocks, and the operands of a minus
and to the right of an operator. The left operand of an operator is what has been read so far, and
no level is entered for it. `Expr.uncounted` is how many of the steps on a way down the tree are not
counted for that reason.

A traversal of a tree goes as deep as its height, and a machine may have no room for that many calls
inside of each other. The definitions of this library have no such limit, so that this is the one
place that says anything about it.

The height exceeds the limit by no more than what is not counted (`Expr.height_le`), so by nothing if
all operators associate to the right (`Expr.uncounted_eq_zero`), but a limit of two levels is enough
for trees of any height of each operator that associates to the left (`exists_parse_height`).
-/

namespace Imp32

namespace Expr

/-- The number of nodes from the expression down to its deepest leaf. -/
def height : Expr → Nat
  | value _ _ => 1
  | var _ _ => 1
  | neg a _ => a.height + 1
  | binary a _ b _ => max a.height b.height + 1

/-- The expression is no leaf and needs no parentheses at a place that asks for `least`. -/
def standsBare (least : Nat) : Expr → Bool
  | value _ _ => false
  | var _ _ => false
  | neg _ _ => least ≤ Precedence.power
  | binary _ op _ _ => least ≤ op.precedence

/-- The most steps on a way down that go from an operator to a left operand which stands bare. -/
def uncounted : Expr → Nat
  | value _ _ => 0
  | var _ _ => 0
  | neg a _ => a.uncounted
  | binary a op b _ =>
    max (a.uncounted + if a.standsBare op.leftOperand then 1 else 0) b.uncounted

/-! ## Heights and levels -/

/-- At any place, an expression that is no leaf stands bare or takes one level more. -/
theorem leaf_or_bare_or_deeper (e : Expr) (least : Nat) :
    e.height = 1 ∨ e.standsBare least = true ∨
      e.levels least = e.levels Precedence.lowest + 1 := by
  cases e with
  | value n span => exact .inl rfl
  | var name span => exact .inl rfl
  | neg a span =>
    refine .inr ((Nat.lt_or_ge Precedence.power least).symm.imp decide_eq_true fun h => ?_)
    rw [levels_neg (Precedence.lowest_le _), levels, if_pos h, Nat.add_comm]
  | binary a op b span =>
    refine .inr ((Nat.lt_or_ge op.precedence least).symm.imp decide_eq_true fun h => ?_)
    rw [levels_binary (Precedence.lowest_le _), levels, if_pos h, Nat.add_comm]

/-- Each node is a level, but for operators whose left operand stands bare. -/
theorem height_le (e : Expr) : e.height ≤ e.levels Precedence.lowest + e.uncounted := by
  induction e with
  | value n span => exact Nat.le_refl 1
  | var name span => exact Nat.le_refl 1
  | neg a span ih =>
    have hoperand := a.levels_mono (Precedence.lowest_le Precedence.unary)
    rw [levels_neg (Precedence.lowest_le _), height, uncounted]
    omega
  | binary a op b span iha ihb =>
    have hleft := a.levels_mono (Precedence.lowest_le op.leftOperand)
    have hright := b.levels_mono (Precedence.lowest_le op.rightOperand)
    have hpos := b.levels_pos op.rightOperand
    rw [levels_binary (Precedence.lowest_le _), height, uncounted]
    rcases a.leaf_or_bare_or_deeper op.leftOperand with hleaf | hbare | hparens
    · split <;> omega
    · rw [if_pos hbare]
      omega
    · split <;> omega

/-- What stands inside an expression takes no more levels than it. -/
theorem levels_le_of_mem_parts {e a : Expr} (h : a ∈ e.parts) :
    a.levels Precedence.lowest ≤ e.levels Precedence.lowest := by
  induction e with
  | value n span => exact Nat.le_of_eq (congrArg _ (List.mem_singleton.1 h))
  | var name span => exact Nat.le_of_eq (congrArg _ (List.mem_singleton.1 h))
  | neg b span ih =>
    obtain rfl | h := List.mem_cons.1 h
    · exact Nat.le_refl _
    · have hoperand := b.levels_mono (Precedence.lowest_le Precedence.unary)
      rw [levels_neg (Precedence.lowest_le _)]
      exact Nat.le_succ_of_le (Nat.le_trans (ih h) hoperand)
  | binary b op c span ihb ihc =>
    obtain rfl | h := List.mem_cons.1 h
    · exact Nat.le_refl _
    · have hleft := b.levels_mono (Precedence.lowest_le op.leftOperand)
      have hright := c.levels_mono (Precedence.lowest_le op.rightOperand)
      rw [levels_binary (Precedence.lowest_le _)]
      obtain h | h := List.mem_append.1 h
      · exact Nat.le_trans (Nat.le_trans (ihb h) hleft) (Nat.le_max_left _ _)
      · have hle := Nat.le_succ_of_le (Nat.le_trans (ihc h) hright)
        exact Nat.le_trans hle (Nat.le_max_right _ _)

theorem WellFormed.of_mem_parts {e a : Expr} (h : e.WellFormed) (ha : a ∈ e.parts) :
    a.WellFormed := by
  induction e with
  | value n span => exact List.mem_singleton.1 ha ▸ h
  | var name span => exact List.mem_singleton.1 ha ▸ h
  | neg b span ih =>
    obtain rfl | ha := List.mem_cons.1 ha
    · exact h
    · exact ih h ha
  | binary b op c span ihb ihc =>
    obtain rfl | ha := List.mem_cons.1 ha
    · exact h
    · exact (List.mem_append.1 ha).elim (ihb h.2.1) (ihc h.2.2)

/-! ## Operators that associate to the right -/

/-- Every operator inside the expression associates to the right. -/
def AllRight : Expr → Prop
  | value _ _ => True
  | var _ _ => True
  | neg a _ => a.AllRight
  | binary a op b _ => op.isRightAssoc = true ∧ a.AllRight ∧ b.AllRight

/-- Nothing stands bare to the left of a power, and an assignment has a variable there. -/
theorem uncounted_eq_zero {e : Expr} (hvar : e.WellFormed) (h : e.AllRight) : e.uncounted = 0 := by
  induction e with
  | value n span => rfl
  | var name span => rfl
  | neg a span ih => exact ih hvar h
  | binary a op b span iha ihb =>
    obtain ⟨htarget, hvara, hvarb⟩ := hvar
    obtain ⟨hop, ha, hb⟩ := h
    have hbare : a.standsBare op.leftOperand = false := by
      cases op with
      | assign =>
        obtain ⟨name, span, rfl⟩ := htarget rfl
        rfl
      | pow =>
        cases a with
        | binary a' op' b' span' => cases op' <;> rfl
        | _ => rfl
      | _ => cases hop
    rw [uncounted, iha hvara ha, ihb hvarb hb, hbare]
    rfl

/-! ## Chains of an operator -/

/-- The operator so many times, from the left, between ones. -/
def chain (op : BinaryOp) : Nat → Expr
  | 0 => value 1 .none
  | n + 1 => binary (chain op n) op (value 1 .none) .none

theorem height_chain (op : BinaryOp) (n : Nat) : (chain op n).height = n + 1 := by
  induction n with
  | zero => rfl
  | succ n ih =>
    rw [chain, height, ih, height]
    omega

theorem levels_chain {op : BinaryOp} (hop : op.isRightAssoc = false) (n : Nat) :
    (chain op n).levels op.leftOperand ≤ 2 := by
  induction n with
  | zero => exact Nat.le_succ 1
  | succ n ih =>
    have hleft : op.leftOperand ≤ op.precedence := by
      rw [BinaryOp.leftOperand, hop]
      exact Nat.le_refl _
    rw [chain, levels_binary hleft]
    exact Nat.max_le.2 ⟨ih, Nat.le_refl 2⟩

theorem chain_proper {op : BinaryOp} (hop : op ≠ .assign) (n : Nat) : (chain op n).Proper := by
  have hone : (value 1 .none).Spellable := by
    show IsLiteral 1
    unfold IsLiteral
    decide
  induction n with
  | zero => exact ⟨trivial, hone⟩
  | succ n ih => exact ⟨⟨fun h => absurd h hop, ih.wellFormed, trivial⟩, ih.spellable, hone⟩

theorem height_bare (e : Expr) : e.bare.height = e.height := by
  induction e with
  | value n span => rfl
  | var name span => rfl
  | neg a span ih => rw [bare, height, height, ih]
  | binary a op b span iha ihb => rw [bare, height, height, iha, ihb]

end Expr

/-! ## Programs -/

theorem levels_le_of_clauseLevels {e : Option Expr} {n : Nat} (h : clauseLevels e ≤ n) :
    ∀ a ∈ e, a.levels Precedence.lowest ≤ n := by
  rintro a rfl
  exact h

mutual

theorem Stmt.each_levels {s : Stmt} {n : Nat} (h : s.levels ≤ n) :
    s.Each fun e => e.levels Precedence.lowest ≤ n := by
  cases s with
  | expr e span => exact h
  | block body span => exact Program.each_levels (Nat.le_of_succ_le h)
  | ifThen cond body span =>
    obtain ⟨hcond, hbody⟩ := Nat.max_le.1 h
    exact ⟨hcond, Program.each_levels (Nat.le_of_succ_le hbody)⟩
  | whileLoop cond body span =>
    obtain ⟨hcond, hbody⟩ := Nat.max_le.1 h
    exact ⟨hcond, Program.each_levels (Nat.le_of_succ_le hbody)⟩
  | forLoop init cond update body span =>
    obtain ⟨hclauses, hrest⟩ := Nat.max_le.1 h
    obtain ⟨hinit, hcond⟩ := Nat.max_le.1 hclauses
    obtain ⟨hupdate, hbody⟩ := Nat.max_le.1 hrest
    exact ⟨levels_le_of_clauseLevels hinit, levels_le_of_clauseLevels hcond,
      levels_le_of_clauseLevels hupdate, Program.each_levels (Nat.le_of_succ_le hbody)⟩

/-- The expressions of a program take no more levels than it. -/
theorem Program.each_levels {p : Program} {n : Nat} (h : statementLevels p ≤ n) :
    p.Each fun e => e.levels Precedence.lowest ≤ n := by
  cases p with
  | nil => trivial
  | cons s rest =>
    obtain ⟨hs, hrest⟩ := Nat.max_le.1 h
    exact ⟨Stmt.each_levels hs, Program.each_levels hrest⟩

end

section Parse

variable {source : String} {limit : Int} {p : Program} {e : Expr}

theorem levels_le_of_parse (h : Program.parse source limit = .ok p) (he : e ∈ p.parts) :
    e.levels Precedence.lowest ≤ limit.toNat := by
  obtain ⟨ts, -, hp⟩ := Program.parse_eq_ok.1 h
  rw [Program.parts_eq] at he
  obtain ⟨a, ha, he⟩ := List.mem_flatMap.1 he
  exact Nat.le_trans (Expr.levels_le_of_mem_parts he)
    ((Program.each_iff p).1 (Program.each_levels (ofTokens_within hp)) a ha)

theorem wellFormed_of_parse (h : Program.parse source limit = .ok p) (he : e ∈ p.parts) :
    e.WellFormed := by
  rw [Program.parts_eq] at he
  obtain ⟨a, ha, he⟩ := List.mem_flatMap.1 he
  exact ((Program.each_iff p).1 (parse_proper h) a ha).wellFormed.of_mem_parts he

theorem height_le_of_parse (h : Program.parse source limit = .ok p) (he : e ∈ p.parts) :
    e.height ≤ limit.toNat + e.uncounted :=
  Nat.le_trans e.height_le (Nat.add_le_add_right (levels_le_of_parse h he) _)

end Parse

theorem exists_of_sameTrees_expr {q : Program} {a : Expr} {span : Span}
    (h : sameTrees q [.expr a span] = true) : ∃ e ∈ q.parts, e.sameTree a = true := by
  cases q with
  | nil => simp [sameTrees] at h
  | cons s rest =>
    cases s with
    | expr e _ =>
      have hsame : e.sameTree a = true ∧ sameTrees rest [] = true := by
        simpa [sameTrees, Stmt.sameTree] using h
      exact ⟨e, List.mem_append_left _ e.mem_parts, hsame.1⟩
    | _ => simp [sameTrees, Stmt.sameTree] at h

/-- A limit of two levels is enough for chains of any length. -/
theorem exists_parse_height {limit : Int} (hlimit : 2 ≤ limit) {op : BinaryOp}
    (hop : op.isRightAssoc = false) (n : Nat) : ∃ source p, Program.parse source limit = .ok p ∧
      ∃ e ∈ p.parts, e.height = n + 1 := by
  have hassign : op ≠ .assign := by
    rintro rfl
    cases hop
  have hlevels : statementLevels [.expr (Expr.chain op n) .none] ≤ limit.toNat := by
    have hchain := Expr.levels_chain hop n
    have hlowest := (Expr.chain op n).levels_mono (Precedence.lowest_le op.leftOperand)
    refine Nat.max_le.2 ⟨?_, Nat.zero_le _⟩
    show (Expr.chain op n).levels Precedence.lowest ≤ _
    omega
  have hproper : Program.Proper [.expr (Expr.chain op n) .none] :=
    ⟨Expr.chain_proper hassign n, trivial⟩
  obtain ⟨q, hq, hsame⟩ := parse_print hproper hlevels
  obtain ⟨e, he, hsame⟩ := exists_of_sameTrees_expr hsame
  refine ⟨_, q, hq, e, he, ?_⟩
  rw [← e.height_bare, (Expr.sameTree_iff e _).1 hsame, Expr.height_bare, Expr.height_chain]

/-- The heights of trees that are read under the limit. The levels of an expression are within the
limit, its height exceeds it by no more than what is not counted, and not at all if every operator
associates to the right. Each other operator gives trees of any height. -/
structure HeightsUnder (limit : Int) : Prop where
  levels : ∀ source p, Program.parse source limit = .ok p → ∀ e ∈ p.parts,
    e.levels Precedence.lowest ≤ limit.toNat
  height : ∀ source p, Program.parse source limit = .ok p → ∀ e ∈ p.parts,
    e.height ≤ limit.toNat + e.uncounted
  allRight : ∀ source p, Program.parse source limit = .ok p → ∀ e ∈ p.parts, e.AllRight →
    e.height ≤ limit.toNat
  unbounded : 2 ≤ limit → ∀ op : BinaryOp, op.isRightAssoc = false → ∀ n, ∃ source p,
    Program.parse source limit = .ok p ∧ ∃ e ∈ p.parts, e.height = n + 1

/-- The limit of nesting bounds what the reader enters, and the height of a tree only up to the left
operands that it does not enter. -/
theorem heights_under (limit : Int) : HeightsUnder limit where
  levels := fun _ _ h _ he => levels_le_of_parse h he
  height := fun _ _ h _ he => height_le_of_parse h he
  allRight := fun _ _ h e he hright => by
    have hle := height_le_of_parse h he
    rwa [e.uncounted_eq_zero (wellFormed_of_parse h he) hright] at hle
  unbounded := fun hlimit _ hop => exists_parse_height hlimit hop

/-- Two levels are enough for the sum of three ones, whose tree has height three. -/
example : (Program.parse "1+1+1;" 2).toOption.map (·.parts.map Expr.height) =
    some [3, 2, 1, 1, 1] := by
  decide +kernel

end Imp32
