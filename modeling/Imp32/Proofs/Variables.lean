import Imp32.Proofs.Checking
import Imp32.Proofs.Evaluation
import Imp32.Proofs.Nodes

/-!
# Guarantees about variables

A guarantee that allows any value and any halt is one about variables alone. Expressions meet it if
it is kept by the assignments that stand in them (`Guarantee.Open.meets`), since nothing else changes
a variable.
-/

namespace Imp32

/-- Any value and any halt is allowed. -/
structure Guarantee.Open (G : Guarantee) : Prop where
  value (v : Int) : G.value v
  halt (halt : Halt) : G.halt halt

/-- Storing what one of the expressions assigns leaves the variables allowed. -/
def Guarantee.KeptBy (G : Guarantee) (es : List Expr) : Prop :=
  ∀ name place, Assigns es name place → ∀ env v, G.env env → G.env (env.set name v)

namespace Guarantee.Open

variable {G : Guarantee} (h : G.Open)

include h

theorem sound : G.Sound where
  zero := h.value 0
  wrap _ := h.value _
  apply _ := h.value _
  get _ _ := h.value _
  outOfTurns := h.halt .outOfTurns

theorem meets {found : List Expr} (hfound : G.KeptBy found) {e : Expr} (hparts : e.parts ⊆ found) :
    e.Meets G := by
  induction e with
  | value n span => exact h.value n
  | var name span => exact h.halt _
  | neg a span ih => exact ih (List.cons_subset.1 hparts).2
  | binary a op b span iha ihb =>
    obtain ⟨hself, hboth⟩ := List.cons_subset.1 hparts
    obtain ⟨ha, hb⟩ := List.append_subset.1 hboth
    unfold Expr.Meets
    split
    next hop =>
      subst hop
      refine ⟨ihb hb, ?_⟩
      cases a with
      | var name place => exact fun env v henv _ => hfound name place ⟨b, span, hself⟩ env v henv
      | _ => exact h.halt _
    next => exact ⟨iha ha, ihb hb, fun _ _ _ _ => h.halt _⟩

/-- What the assignments of a statement keep, it keeps. -/
theorem exec {s : Stmt} (hs : G.KeptBy s.parts) (turns : Nat) {env : Env} (henv : G.env env) :
    G.env (Outcome.env (s.exec turns env)) := by
  have hmeets := (Stmt.each_parts (List.Subset.refl s.parts)).imp fun _ => h.meets hs
  exact (s.keeps h.sound turns hmeets env henv).1.env

end Guarantee.Open

end Imp32
