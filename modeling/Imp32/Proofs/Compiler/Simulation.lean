import Imp32.Proofs.Compiler.Labels

/-!
# Code that does what a run does

`Implements` relates a run of the evaluator to a stretch of code: where the run gives a value the
stack machine arrives at a line, with the slots as the variables are; where it fails the machine
arrives at the handler of the failure; and where it runs out of turns the machine goes on for as
many steps as there were turns. The relation follows the binds of a run, so the code of a program
is treated piece by piece.
-/

namespace Imp32

open Assembly

/-- The machine arrives at the handler of the error. -/
def Fails (whole : List Op) (p : Point StackState) (e : EvalError) : Prop :=
  ∃ kind line code s, e.trapKind? = some kind ∧ trapCode? kind = some code ∧
    whole[line]? = some (.label (.trap kind)) ∧ whole[line + 1]? = some (.trap code) ∧
    Reaches (stackStep whole) p ⟨line, s⟩

/-- The slots hold what the names are bound to. -/
def slotsOf (names : List String) (env : Env) : List (Option Int) :=
  names.map env.get?

/-- From a point on, the code does what a run did. After a run with a value it is at a line, in a
state that has the property. -/
def Follows {α : Type} (whole : List Op) (names : List String) (turns : Nat)
    (result : EStateM.Result Halt Env α) (p : Point StackState) (line : Nat)
    (Q : α → StackState → Prop) : Prop :=
  match result with
  | .ok a env =>
    ∃ s, Reaches (stackStep whole) p ⟨line, s⟩ ∧ s.slots = slotsOf names env ∧ Q a s
  | .error (.error e) _ => Fails whole p e
  | .error .outOfTurns _ => Lasts (stackStep whole) turns p

/-- From a point on, the code does what the run does, whatever the variables are. -/
def Implements {α : Type} (whole : List Op) (names : List String) (turns : Nat) (run : Run α)
    (p : Point StackState) (line : Nat) (Q : α → StackState → Prop) : Prop :=
  ∀ env : Env, p.state.slots = slotsOf names env → Follows whole names turns (run env) p line Q

section Rules

variable {α β : Type} {whole : List Op} {names : List String} {turns turns' : Nat}
  {x : Run α} {f : α → Run β} {p p' : Point StackState} {line line' : Nat}
  {Q : α → StackState → Prop} {R : β → StackState → Prop}

theorem Fails.of_reaches {e : EvalError} (h : Reaches (stackStep whole) p p')
    (hfails : Fails whole p' e) : Fails whole p e := by
  obtain ⟨kind, line, code, s, hkind, hcode, hlabel, htrap, hreaches⟩ := hfails
  exact ⟨kind, line, code, s, hkind, hcode, hlabel, htrap, h.trans hreaches⟩

/-- Steps may come first. -/
theorem Follows.of_reaches {result : EStateM.Result Halt Env α}
    (h : Reaches (stackStep whole) p p') (hf : Follows whole names turns result p' line Q) :
    Follows whole names turns result p line Q := by
  cases result with
  | ok a env =>
    obtain ⟨s, hreaches, hs, hQ⟩ := hf
    exact ⟨s, h.trans hreaches, hs, hQ⟩
  | error halt env =>
    cases halt with
    | error e => exact Fails.of_reaches h hf
    | outOfTurns => exact h.lasts hf

namespace Implements

theorem pure {a : α} (h : Q a p.state) :
    Implements whole names turns (Pure.pure a) p p.line Q :=
  fun _ hslots => ⟨p.state, .refl p, hslots, h⟩

/-- Steps that leave the slots alone may come first. -/
theorem of_reaches (h : Reaches (stackStep whole) p p') (hslots : p'.state.slots = p.state.slots)
    (hx : Implements whole names turns x p' line Q) : Implements whole names turns x p line Q :=
  fun env henv => (hx env (hslots.trans henv)).of_reaches h

theorem bind (hx : Implements whole names turns x p line Q)
    (hf : ∀ a s, Q a s → Implements whole names turns (f a) ⟨line, s⟩ line' R) :
    Implements whole names turns (x >>= f) p line' R := by
  intro env henv
  have hx := hx env henv
  cases hrun : x env with
  | ok a env' =>
    rw [hrun] at hx
    obtain ⟨s, hreaches, hs, hQ⟩ := hx
    rw [bind_of_ok hrun]
    exact (hf a s hQ env' hs).of_reaches hreaches
  | error halt env' =>
    rw [bind_of_error hrun]
    rw [hrun] at hx
    cases halt with
    | error e => exact hx
    | outOfTurns => exact hx

/-- Steps that leave the slots alone may come last. -/
theorem after {Q' : α → StackState → Prop} (hx : Implements whole names turns x p line Q)
    (h : ∀ a s, Q a s → ∃ s', Reaches (stackStep whole) ⟨line, s⟩ ⟨line', s'⟩ ∧
      s'.slots = s.slots ∧ Q' a s') : Implements whole names turns x p line' Q' := by
  intro env henv
  have hx := hx env henv
  cases hrun : x env with
  | ok a env' =>
    rw [hrun] at hx
    obtain ⟨s, hreaches, hs, hQ⟩ := hx
    obtain ⟨s', hreaches', hslots, hQ'⟩ := h a s hQ
    exact ⟨s', hreaches.trans hreaches', hslots.trans hs, hQ'⟩
  | error halt env' =>
    rw [hrun] at hx
    cases halt with
    | error e => exact hx
    | outOfTurns => exact hx

/-- A step that comes first lets the run go on for one more turn. -/
theorem of_advances (h : Advances (stackStep whole) p p') (hslots : p'.state.slots = p.state.slots)
    (hx : Implements whole names turns x p' line Q) :
    Implements whole names (turns + 1) x p line Q := by
  intro env henv
  have hx := hx env (hslots.trans henv)
  cases hrun : x env with
  | ok a env' =>
    rw [hrun] at hx
    exact Follows.of_reaches h.reaches hx
  | error halt env' =>
    rw [hrun] at hx
    cases halt with
    | error e => exact Fails.of_reaches h.reaches hx
    | outOfTurns => exact h.lasts hx

/-- A longer run is more than what was asked for. -/
theorem fewer (h : Implements whole names turns x p line Q) (hturns : turns' ≤ turns) :
    Implements whole names turns' x p line Q := by
  intro env henv
  have h := h env henv
  cases hrun : x env with
  | ok a env' =>
    rw [hrun] at h
    exact h
  | error halt env' =>
    rw [hrun] at h
    cases halt with
    | error e => exact h
    | outOfTurns => exact h.mono hturns

end Implements

theorem reaches_op {o : Op} {s s' : StackState} (hplaced : whole[line]? = some o)
    (hexec : o.exec s = .next s') : Reaches (stackStep whole) ⟨line, s⟩ ⟨line + 1, s'⟩ :=
  (Advances.of_step (stackStep_next hplaced hexec)).reaches

/-- A jump to a label, and past it. -/
theorem reaches_jump {o : Op} {s s' : StackState} {target : Label} {k : Nat}
    (hlinked : Linked whole) (hplaced : whole[line]? = some o)
    (hexec : o.exec s = .jump target s') (hk : whole[k]? = some (.label target)) :
    Reaches (stackStep whole) ⟨line, s⟩ ⟨k + 1, s'⟩ :=
  (Advances.of_step (stackStep_jump hlinked hplaced hexec hk)).reaches.trans
    (reaches_op hk rfl)

/-- One operation that leaves the slots alone. -/
theorem Implements.op {o : Op} {s s' : StackState} (hplaced : whole[line]? = some o)
    (hexec : o.exec s = .next s') (hslots : s'.slots = s.slots)
    (hx : Implements whole names turns x ⟨line + 1, s'⟩ line' Q) :
    Implements whole names turns x ⟨line, s⟩ line' Q :=
  hx.of_reaches (reaches_op hplaced hexec) hslots

end Rules

end Imp32
