import Imp32.Proofs.Evaluation

/-!
# Values are words

If the literals of a program and the variables that it starts from are in the range of a word, then
every value that any call in a run comes to is, and so is every variable whenever a call returns, be
it with a value, with an error or out of turns (`keeps_words`).
-/

namespace Imp32

/-- Every variable has a value in the range of a word. -/
def Env.InRange (env : Env) : Prop := ∀ binding ∈ env, Word.InRange binding.2

/-- Every literal is in the range of a word. -/
def Expr.LiteralsInRange : Expr → Prop
  | .value n _ => Word.InRange n
  | .var _ _ => True
  | .neg a _ => a.LiteralsInRange
  | .binary a _ b _ => a.LiteralsInRange ∧ b.LiteralsInRange

/-- Values and variables are in the range of a word, and any halt is allowed. -/
def Guarantee.words : Guarantee where
  value := Word.InRange
  env := Env.InRange
  halt _ := True

/-! ## Variables -/

section Variables

variable {env : Env} {name : String} {n : Int}

theorem Env.InRange.get (h : Env.InRange env) (hget : env.get? name = some n) :
    Word.InRange n := by
  induction env with
  | nil => cases hget
  | cons binding rest ih =>
    obtain ⟨key, m⟩ := binding
    obtain ⟨hm, hrest⟩ := List.forall_mem_cons.1 h
    unfold Bindings.get? at hget
    split at hget
    · cases hget
      exact hm
    · exact ih hrest hget

theorem Env.InRange.set (h : Env.InRange env) (hn : Word.InRange n) :
    Env.InRange (env.set name n) := by
  induction env with
  | nil => exact List.forall_mem_singleton.2 hn
  | cons binding rest ih =>
    obtain ⟨key, m⟩ := binding
    obtain ⟨hm, hrest⟩ := List.forall_mem_cons.1 h
    unfold Bindings.set
    split
    · exact List.forall_mem_cons.2 ⟨hn, hrest⟩
    · exact List.forall_mem_cons.2 ⟨hm, ih hrest⟩

end Variables

/-! ## Operators -/

theorem Run.truth_inRange (p : Bool) : Word.InRange (Run.truth p) := by
  cases p <;> decide

/-- An operator has a word for its result, whatever its operands are. -/
theorem BinaryOp.apply_inRange {op : BinaryOp} {a b r : Int} {span : Span}
    (h : op.apply a b span = .ok r) : Word.InRange r := by
  cases op with
  | add | sub | mul =>
    cases h
    exact Word.wrap_inRange _
  | div =>
    simp only [BinaryOp.apply] at h
    split at h
    · cases h
    · cases h
      exact Word.wrap_inRange _
  | pow =>
    simp only [BinaryOp.apply] at h
    split at h
    · cases h
    · exact Except.ok.inj h ▸ Word.wrap_inRange _
  | assign => cases h
  | _ =>
    cases h
    exact Run.truth_inRange _

/-! ## Runs -/

theorem Guarantee.words_sound : words.Sound where
  zero := by
    show Word.InRange 0
    decide
  wrap n := Word.wrap_inRange n
  apply := BinaryOp.apply_inRange
  get := Env.InRange.get
  outOfTurns := trivial

theorem Expr.LiteralsInRange.meets {e : Expr} (h : e.LiteralsInRange) : e.Meets .words := by
  induction e with
  | value n span => exact h
  | var name span => trivial
  | neg a span ih => exact ih h
  | binary a op b span iha ihb =>
    unfold Expr.Meets
    split
    · refine ⟨ihb h.2, ?_⟩
      cases a with
      | var name span => exact fun env v henv hv => henv.set hv
      | _ => trivial
    · exact ⟨iha h.1, ihb h.2, fun _ _ _ _ => trivial⟩

/-- All values and variables of a run are words, on every way out of every call: of an expression
and of a statement on any variables, and of a program on any variables and on none. -/
theorem keeps_words (turns : Nat) :
    (∀ e : Expr, e.LiteralsInRange → Guarantee.words.Keeps e.eval e.history) ∧
    (∀ s : Stmt, s.Each Expr.LiteralsInRange →
      Guarantee.words.Keeps (s.exec turns) (s.history turns)) ∧
    (∀ p : Program, p.Each Expr.LiteralsInRange →
      Guarantee.words.Keeps (execAll turns p 0) (p.history turns) ∧
        Guarantee.words.Allows (p.eval turns)) := by
  refine ⟨fun e h => e.keeps Guarantee.words_sound h.meets, fun s h => ?_, fun p h => ?_⟩
  · exact s.keeps Guarantee.words_sound turns (h.imp fun e he => he.meets)
  · have hrun := keepsAll Guarantee.words_sound turns (h.imp fun e he => he.meets) 0
      Guarantee.words_sound.zero
    exact ⟨hrun.own, (hrun [] (by exact nofun)).1⟩

/-- `x = 2147483647 + 1; 1 / x; 1 / 0;` leaves the least word in `x` when it fails. -/
theorem keeps_words_overflow :
    let span := Span.mk 0 0
    let p : Program :=
      [.expr (.binary (.var "x" span) .assign
        (.binary (.value 2147483647 span) .add (.value 1 span) span) span) span,
       .expr (.binary (.value 1 span) .div (.var "x" span) span) span,
       .expr (.binary (.value 1 span) .div (.value 0 span) span) span]
    p.Each Expr.LiteralsInRange ∧
      p.eval 0 = .error (.error (.divisionByZero (some span))) [("x", -2147483648)] ∧
      Guarantee.words.Allows (p.eval 0) := by
  intro span p
  have hp : p.Each Expr.LiteralsInRange := by
    simp only [p, Program.Each, Stmt.Each, Expr.LiteralsInRange]
    decide
  exact ⟨hp, rfl, ((keeps_words 0).2.2 p hp).2⟩

end Imp32
