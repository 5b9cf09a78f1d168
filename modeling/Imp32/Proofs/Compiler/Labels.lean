import Imp32.Assembly.Compile
import Imp32.Proofs.Actions
import Imp32.Proofs.StackMachine

/-!
# Labels of compiled code

Compiling counts the labels that it gives out, and code that was compiled from one count to another
sets labels with just the numbers in between, none of them twice (`Emitted`). Its operations use
slots below the number of slots and operators that the targets have.
-/

namespace Imp32

open Assembly

namespace Assembly

def Label.number : Label → Nat
  | fresh _ number => number
  | _ => 0

/-- A stem that ends where the number of a label begins. -/
def IsStem (stem : String) : Prop := stem.toList.all (fun c => !c.isDigit) = true

instance (stem : String) : Decidable (IsStem stem) :=
  inferInstanceAs (Decidable (stem.toList.all _ = true))

/-- The labels that a step sets. -/
def Step.labels (step : Step) : List Label :=
  match step.op with
  | .label l => [l]
  | .prologue name _ => [.named name]
  | _ => step.scratch

def labelsOf (steps : List Step) : List Label := steps.flatMap Step.labels

@[simp] theorem labelsOf_nil : labelsOf [] = [] := rfl

@[simp] theorem labelsOf_cons (step : Step) (steps : List Step) :
    labelsOf (step :: steps) = step.labels ++ labelsOf steps := rfl

@[simp] theorem labelsOf_append (a b : List Step) : labelsOf (a ++ b) = labelsOf a ++ labelsOf b :=
  List.flatMap_append

/-- The operations of the code between the entry and the exit of a function with slots. -/
def Op.Inner (slots : Nat) : Op → Prop
  | loadVar slot | storeVar slot => ∃ k < slots, slot = (k : Nat)
  | arith op => isArith op = true
  | compare op => op.isComparison = true
  | textSection | global _ | prologue _ _ | epilogue | trap _ | comment _ => False
  | _ => True

theorem map_number_freshLabels (stems : List String) (n : Nat) :
    (freshLabels stems n).map Label.number = List.range' (n + 1) stems.length := by
  induction stems generalizing n with
  | nil => rfl
  | cons stem stems ih =>
    show (n + 1) :: (freshLabels stems (n + 1)).map Label.number = _
    rw [ih]
    rfl

theorem mem_freshLabels {stems : List String} {n : Nat} {l : Label}
    (h : l ∈ freshLabels stems n) : ∃ stem ∈ stems, ∃ k, l = .fresh stem k := by
  induction stems generalizing n with
  | nil => cases h
  | cons stem stems ih =>
    rcases List.mem_cons.1 h with rfl | h
    · exact ⟨stem, List.mem_cons_self, _, rfl⟩
    · obtain ⟨stem', hmem, k, rfl⟩ := ih h
      exact ⟨stem', List.mem_cons_of_mem stem hmem, k, rfl⟩

theorem isStem_of_mem_scratch {target : Target} {op : Op} {stem : String}
    (h : stem ∈ target.scratch op) : IsStem stem := by
  have hall : ∀ stem ∈ ["pow_loop", "pow_end", "div_neg", "div_end"], IsStem stem := by decide
  refine hall stem ?_
  cases target with
  | arm64 =>
    change stem ∈ Arm64.scratch op at h
    unfold Arm64.scratch at h
    split at h <;> grind
  | x86 =>
    change stem ∈ X86.scratch op at h
    unfold X86.scratch at h
    split at h <;> grind

end Assembly

/-- The steps were compiled for a target while the count of labels went from `n` to `n'`. -/
structure Emitted (target : Target) (slots n n' : Nat) (steps : List Step) : Prop where
  le : n ≤ n'
  formed : ∀ step ∈ steps, ∃ k, step = step.op.step target k
  inner : ∀ step ∈ steps, step.op.Inner slots
  fresh : ∀ l ∈ labelsOf steps, ∃ stem k, l = .fresh stem k ∧ IsStem stem ∧ n < k ∧ k ≤ n'
  nodup : ((labelsOf steps).map Label.number).Nodup

namespace Emitted

variable {target : Target} {slots n n' n'' : Nat} {a b steps : List Step}

theorem nil (target : Target) (slots n : Nat) : Emitted target slots n n [] where
  le := Nat.le_refl n
  formed := nofun
  inner := nofun
  fresh := nofun
  nodup := .nil

theorem number_mem (h : Emitted target slots n n' steps) {k : Nat}
    (hk : k ∈ (labelsOf steps).map Label.number) : n < k ∧ k ≤ n' := by
  obtain ⟨l, hl, rfl⟩ := List.mem_map.1 hk
  obtain ⟨stem, k, rfl, -, hlow, hhigh⟩ := h.fresh l hl
  exact ⟨hlow, hhigh⟩

theorem append (ha : Emitted target slots n n' a) (hb : Emitted target slots n' n'' b) :
    Emitted target slots n n'' (a ++ b) where
  le := Nat.le_trans ha.le hb.le
  formed step h := by
    rcases List.mem_append.1 h with h | h
    · exact ha.formed step h
    · exact hb.formed step h
  inner step h := by
    rcases List.mem_append.1 h with h | h
    · exact ha.inner step h
    · exact hb.inner step h
  fresh l h := by
    rw [labelsOf_append] at h
    rcases List.mem_append.1 h with h | h
    · obtain ⟨stem, k, rfl, hstem, hlow, hhigh⟩ := ha.fresh l h
      exact ⟨stem, k, rfl, hstem, hlow, Nat.le_trans hhigh hb.le⟩
    · obtain ⟨stem, k, rfl, hstem, hlow, hhigh⟩ := hb.fresh l h
      exact ⟨stem, k, rfl, hstem, Nat.lt_of_le_of_lt ha.le hlow, hhigh⟩
  nodup := by
    rw [labelsOf_append, List.map_append]
    refine List.nodup_append.2 ⟨ha.nodup, hb.nodup, fun i hi j hj => ?_⟩
    have hi := (ha.number_mem hi).2
    have hj := (hb.number_mem hj).1
    omega

/-- A label that was given out before the rest of the code may stand anywhere in it. -/
theorem insert (stem : String) (hstem : IsStem stem)
    (h : Emitted target slots (n + 1) n' (a ++ b)) :
    Emitted target slots n n' (a ++ ⟨.label (.fresh stem (n + 1)), []⟩ :: b) where
  le := Nat.le_of_succ_le h.le
  formed step hstep := by
    rcases List.mem_append.1 hstep with hstep | hstep
    · exact h.formed step (List.mem_append_left b hstep)
    · rcases List.mem_cons.1 hstep with rfl | hstep
      · refine ⟨0, ?_⟩
        cases target <;> rfl
      · exact h.formed step (List.mem_append_right a hstep)
  inner step hstep := by
    rcases List.mem_append.1 hstep with hstep | hstep
    · exact h.inner step (List.mem_append_left b hstep)
    · rcases List.mem_cons.1 hstep with rfl | hstep
      · trivial
      · exact h.inner step (List.mem_append_right a hstep)
  fresh l hl := by
    have hl : l = .fresh stem (n + 1) ∨ l ∈ labelsOf (a ++ b) := by
      simp only [labelsOf_append, labelsOf_cons, List.mem_append] at hl ⊢
      rcases hl with hl | hl | hl
      · exact .inr (.inl hl)
      · exact .inl (List.mem_singleton.1 hl)
      · exact .inr (.inr hl)
    rcases hl with rfl | hl
    · exact ⟨stem, n + 1, rfl, hstem, Nat.lt_succ_self n, h.le⟩
    · obtain ⟨stem', k, rfl, hstem', hlow, hhigh⟩ := h.fresh l hl
      exact ⟨stem', k, rfl, hstem', Nat.lt_of_succ_lt hlow, hhigh⟩
  nodup := by
    have hperm : ((labelsOf (a ++ ⟨.label (.fresh stem (n + 1)), []⟩ :: b)).map Label.number).Perm
        ((n + 1) :: (labelsOf (a ++ b)).map Label.number) := by
      simp only [labelsOf_append, labelsOf_cons, List.map_append]
      exact List.perm_middle
    refine hperm.symm.nodup (List.nodup_cons.2 ⟨fun hmem => ?_, h.nodup⟩)
    have := (h.number_mem hmem).1
    omega

end Emitted

/-! ## Compiling operations -/

namespace Assembly

/-- The expansion of the operation has no jumps of its own. -/
def Op.Plain : Op → Prop
  | pow | arith _ => False
  | _ => True

theorem scratch_of_plain {target : Target} {o : Op} (h : o.Plain) : target.scratch o = [] := by
  cases target <;> cases o <;> first | rfl | cases h

theorem step_of_plain {target : Target} {o : Op} (h : o.Plain) (n : Nat) :
    o.step target n = ⟨o, []⟩ := by
  unfold Op.step
  rw [scratch_of_plain h]
  rfl

end Assembly

/-- An operation that sets no label of its own sets those of its expansion. -/
theorem Emitted.step {target : Target} {slots n : Nat} {o : Op} (h : o.Inner slots)
    (hlabel : ∀ l, o ≠ .label l) :
    Emitted target slots n (n + (target.scratch o).length) [o.step target n] := by
  have hlabels : labelsOf [o.step target n] = freshLabels (target.scratch o) n := by
    rw [labelsOf_cons, labelsOf_nil, List.append_nil]
    cases o with
    | label l => exact absurd rfl (hlabel l)
    | prologue _ _ => cases h
    | _ => rfl
  have hnumbers := map_number_freshLabels (target.scratch o) n
  refine ⟨Nat.le_add_right n _, ?_, ?_, ?_, ?_⟩
  · intro step hstep
    rw [List.mem_singleton.1 hstep]
    exact ⟨n, rfl⟩
  · intro step hstep
    rw [List.mem_singleton.1 hstep]
    exact h
  · intro l hl
    rw [hlabels] at hl
    obtain ⟨stem, hstem, k, rfl⟩ := mem_freshLabels hl
    have hk : k ∈ (freshLabels (target.scratch o) n).map Label.number :=
      List.mem_map.2 ⟨_, hl, rfl⟩
    rw [hnumbers, List.mem_range'_1] at hk
    exact ⟨stem, k, rfl, isStem_of_mem_scratch hstem, by omega, by omega⟩
  · rw [hlabels, hnumbers]
    exact List.nodup_range'

theorem Emitted.plain {target : Target} {slots : Nat} {os : List Op}
    (h : ∀ o ∈ os, o.Inner slots ∧ o.Plain ∧ ∀ l, o ≠ .label l) (n : Nat) :
    Emitted target slots n n (os.map (⟨·, []⟩)) := by
  induction os with
  | nil => exact .nil target slots n
  | cons o os ih =>
    obtain ⟨hinner, hplain, hlabel⟩ := h o List.mem_cons_self
    have hstep : Emitted target slots n _ [o.step target n] := .step hinner hlabel
    rw [scratch_of_plain hplain, step_of_plain hplain] at hstep
    exact hstep.append (ih fun o' ho' => h o' (List.mem_cons_of_mem o ho'))

namespace Compile

open Assembly

variable {target : Target} {slots n : Nat} {o : Op} {os : List Op}

theorem op_eq (target : Target) (o : Op) (n : Nat) :
    op target o n = .ok [o.step target n] (n + (target.scratch o).length) := by
  rw [← length_freshLabels (target.scratch o) n]
  rfl

theorem op_plain (h : o.Plain) (n : Nat) : op target o n = .ok [⟨o, []⟩] n := by
  rw [op_eq, step_of_plain h, scratch_of_plain h]
  rfl

theorem newLabel_eq (stem : String) (n : Nat) :
    newLabel stem n = .ok (.fresh stem (n + 1)) (n + 1) := rfl

theorem ops_cons {steps : List Step} {n' : Nat}
    (h : ops target os (n + (target.scratch o).length) = .ok steps n') :
    ops target (o :: os) n = .ok (o.step target n :: steps) n' := by
  unfold ops
  rw [bind_of_ok (op_eq target o n), bind_of_ok h]
  rfl

/-- Plain operations take no labels. -/
theorem ops_plain (h : ∀ o ∈ os, o.Plain) : ops target os n = .ok (os.map (⟨·, []⟩)) n := by
  induction os with
  | nil => rfl
  | cons o os ih =>
    have ho := h o List.mem_cons_self
    have hos := ih fun o' ho' => h o' (List.mem_cons_of_mem o ho')
    have hstep : ops target os (n + (target.scratch o).length) = .ok (os.map (⟨·, []⟩)) n := by
      rwa [scratch_of_plain ho]
    rw [ops_cons hstep, step_of_plain ho]
    rfl

/-- Operations that set no labels of their own are compiled to themselves. -/
theorem ops_emitted (target : Target) (h : ∀ o ∈ os, o.Inner slots ∧ ∀ l, o ≠ .label l) (n : Nat) :
    ∃ steps n', ops target os n = .ok steps n' ∧ Emitted target slots n n' steps ∧
      steps.map Step.op = os := by
  induction os generalizing n with
  | nil => exact ⟨[], n, rfl, .nil target slots n, rfl⟩
  | cons o os ih =>
    obtain ⟨hinner, hlabel⟩ := h o List.mem_cons_self
    obtain ⟨steps, n', hops, hemitted, hmap⟩ :=
      ih (fun o' ho' => h o' (List.mem_cons_of_mem o ho')) (n + (target.scratch o).length)
    have hstep : Emitted target slots n _ [o.step target n] := .step hinner hlabel
    refine ⟨o.step target n :: steps, n', ops_cons hops, hstep.append hemitted, ?_⟩
    rw [List.map_cons, hmap]
    rfl

end Compile

end Imp32
