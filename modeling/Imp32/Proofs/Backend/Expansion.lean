import Imp32.Proofs.Backend.Memory
import Imp32.Proofs.Compiler.Linking

/-!
# Expanded steps

A target expands steps into lines of its own. If the expansion of each step answers what its
operation does to the stack machine (`Answers`), the lines simulate the stack machine
(`simulates_of_answers`), and the lines of an assembled program end as the program ends
(`realizes_of_assembled`).
-/

namespace Imp32.Assembly

/-- A label stands for a line that sets a label written like it. -/
theorem exists_of_resolve {Instr : Type} {lines : List (Line Instr)} {l : Label} {k : Nat}
    (h : resolve lines l = some k) : ∃ l', lines[k]? = some (.label l') ∧ l'.text = l.text := by
  unfold resolve at h
  obtain ⟨hk, hlabel, -⟩ := List.findIdx?_eq_some_iff_getElem.1 h
  cases hline : lines[k] with
  | label l' =>
    rw [hline] at hlabel
    exact ⟨l', List.getElem?_eq_some_iff.2 ⟨hk, hline⟩, by simpa [Line.label?] using hlabel⟩
  | _ => simp [hline, Line.label?] at hlabel

theorem resolve_congr {Instr : Type} (lines : List (Line Instr)) {l l' : Label}
    (h : l'.text = l.text) : resolve lines l = resolve lines l' := by
  unfold resolve
  rw [h]

/-- Instructions set no labels. -/
theorem labels_instr {Instr : Type} (is : List Instr) :
    (is.map Line.instr).filterMap Line.label? = ([] : List Label) := by
  induction is with
  | nil => rfl
  | cons i is ih => exact ih

section Expansion

variable {Instr τ π : Type} (expand : Step → List (Line Instr))

/-- The line on which the expansion of a step begins. -/
def offset (steps : List Step) (k : Nat) : Nat := ((steps.take k).flatMap expand).length

variable {expand} {steps : List Step} {step : Step} {k : Nat}

theorem offset_succ (h : steps[k]? = some step) :
    offset expand steps (k + 1) = offset expand steps k + (expand step).length := by
  unfold offset
  rw [List.take_add_one, h, List.flatMap_append, List.length_append]
  simp

theorem placed_expand (h : steps[k]? = some step) :
    Placed (steps.flatMap expand) (offset expand steps k) (expand step) := by
  obtain ⟨hk, rfl⟩ := List.getElem?_eq_some_iff.1 h
  have hsplit : steps.flatMap expand = (steps.take k).flatMap expand ++
      (expand steps[k] ++ (steps.drop (k + 1)).flatMap expand) := by
    conv => lhs; rw [← List.take_append_drop k steps, List.drop_eq_getElem_cons hk]
    rw [List.flatMap_append, List.flatMap_cons]
  have hall := Placed.self (steps.flatMap expand)
  rw [hsplit] at hall ⊢
  have hright := hall.right.left
  rwa [Nat.zero_add] at hright

/-- The lines that a step expands to set its labels, and a label expands to itself. -/
structure Expands (expand : Step → List (Line Instr)) (steps : List Step) : Prop where
  labels : ∀ step ∈ steps, (expand step).filterMap Line.label? = step.labels
  label : ∀ step ∈ steps, ∀ l, step.op = .label l → expand step = [.label l]

/-- The lines set the labels of the steps. -/
theorem Expands.labels_eq (h : Expands expand steps) :
    (steps.flatMap expand).filterMap Line.label? = labelsOf steps := by
  unfold labelsOf
  rw [List.filterMap_flatMap, List.flatMap_def, List.flatMap_def]
  exact congrArg List.flatten (List.map_congr_left h.labels)

theorem Expands.distinct (h : Expands expand steps)
    (hdistinct : ((labelsOf steps).map Label.text).Nodup) : Distinct (steps.flatMap expand) := by
  unfold Distinct
  rwa [h.labels_eq]

theorem Expands.getElem?_label (h : Expands expand steps) {l : Label}
    (hl : (steps.map Step.op)[k]? = some (.label l)) :
    (steps.flatMap expand)[offset expand steps k]? = some (.label l) ∧
      offset expand steps (k + 1) = offset expand steps k + 1 := by
  rw [List.getElem?_map] at hl
  obtain ⟨step, hstep, hop⟩ := Option.map_eq_some_iff.1 hl
  have hexpand := h.label step (List.mem_of_getElem? hstep) l hop
  have hplaced : Placed (steps.flatMap expand) _ _ := placed_expand hstep
  rw [hexpand] at hplaced
  refine ⟨hplaced.head, ?_⟩
  rw [offset_succ hstep, hexpand]
  rfl

/-- A label of the operations stands for the line that its step begins on. -/
theorem Expands.resolve_eq (h : Expands expand steps)
    (hdistinct : ((labelsOf steps).map Label.text).Nodup) {l : Label}
    (hk : resolve ((steps.map Step.op).map Op.line) l = some k) :
    resolve (steps.flatMap expand) l = some (offset expand steps k) := by
  obtain ⟨l', hl', htext⟩ := exists_of_resolve hk
  rw [List.getElem?_map] at hl'
  obtain ⟨op, hop, hline⟩ := Option.map_eq_some_iff.1 hl'
  cases op with
  | label l'' =>
    cases hline
    rw [resolve_congr _ htext]
    exact resolve_of_distinct (h.distinct hdistinct) (h.getElem?_label hop).1
  | _ => cases hline

/-! ## Answers -/

/-- From a position on, the lines do what the operation does to the stack machine. -/
def Answers (exec : Instr → τ → Effect τ π) (lines : List (Line Instr))
    (R : StackState → τ → Prop) (Stops : Nat → StackStop → Nat → π → Prop)
    (effect : Effect StackState StackStop) (pos length : Nat) (t : τ) : Prop :=
  match effect with
  | .next s' => ∃ t', Advances (stepLine exec lines) ⟨pos, t⟩ ⟨pos + length, t'⟩ ∧ R s' t'
  | .jump target s' => ∀ k, resolve lines target = some k →
    ∃ t', Advances (stepLine exec lines) ⟨pos, t⟩ ⟨k, t'⟩ ∧ R s' t'
  | .stop o => ∃ line o', Ends (stepLine exec lines) ⟨pos, t⟩ (.stopped line o') ∧
    Stops pos o line o'
  | .stuck => True

variable {exec : Instr → τ → Effect τ π} {R : StackState → τ → Prop}
  {Stops : Nat → StackStop → Nat → π → Prop}

section Kinds

variable {lines : List (Line Instr)} {pos length : Nat} {s s' : StackState} {t t' t'' : τ}

/-- Instructions that go on with the next line. -/
theorem answers_straight (is : List Instr) (hne : is ≠ [])
    (hplaced : Placed lines pos (is.map .instr)) (hrun : runStraight exec is t = some t')
    (hR : R s' t') :
    Answers exec lines R Stops (.next s') pos (is.map (@Line.instr Instr)).length t := by
  cases is with
  | nil => exact absurd rfl hne
  | cons i is =>
    rw [List.length_map]
    exact ⟨t', advances_straight hplaced hrun, hR⟩

/-- Instructions before one that jumps. -/
theorem answers_jump (is : List Instr) {i : Instr} {rest : List (Line Instr)} {target : Label}
    (hplaced : Placed lines pos (is.map .instr ++ .instr i :: rest))
    (hrun : runStraight exec is t = some t') (hexec : exec i t' = .jump target t'')
    (hR : R s' t'') : Answers exec lines R Stops (.jump target s') pos length t := by
  intro k hk
  have hi := hplaced.right.head
  rw [List.length_map] at hi
  exact ⟨t'', (reaches_straight hplaced.left hrun).advances (.of_step (step_jump hi hexec hk)), hR⟩

/-- An operator is applied to what the registers hold. -/
theorem answers_apply {op : BinaryOp} {m n : Int} (hresult : Carries s.result m)
    (hright : Carries s.right n)
    (h : ∀ a b, Word.InRange a → Word.InRange b → m = low a → n = low b →
      Answers exec lines R Stops (s.applied op a b) pos length t) :
    Answers exec lines R Stops (s.apply op) pos length t := by
  unfold StackState.apply
  cases hs : s.result with
  | none => trivial
  | some a =>
    cases hs' : s.right with
    | none => trivial
    | some b =>
      obtain ⟨ha, hm⟩ := hresult a hs
      obtain ⟨hb, hn⟩ := hright b hs'
      exact h a b ha hb hm hn

end Kinds

/-- How the lines halt where the stack machine halts. -/
def HaltsLike (expand : Step → List (Line Instr)) (steps : List Step)
    (Stops : Nat → StackStop → Nat → π → Prop) : Outcome StackStop → Outcome π → Prop
  | .stopped line o, .stopped line' o' => Stops (offset expand steps line) o line' o'
  | _, _ => False

theorem simulates_of_answers (hexpands : Expands expand steps)
    (hdistinct : ((labelsOf steps).map Label.text).Nodup)
    (h : ∀ (k : Nat) step, steps[k]? = some step → ∀ s t, R s t →
      Answers exec (steps.flatMap expand) R Stops (step.op.exec s) (offset expand steps k)
        (expand step).length t) :
    Simulates (stackStep (steps.map Step.op)) (stepLine exec (steps.flatMap expand))
      (fun p q => q.line = offset expand steps p.line ∧ R p.state q.state) (· ≠ .stuck)
      (HaltsLike expand steps Stops) := by
  rintro ⟨line, s⟩ ⟨line', t⟩ ⟨hline, hR⟩
  dsimp only at hline hR
  subst hline
  cases hstep : steps[line]? with
  | none =>
    have hnone : stackStep (steps.map Step.op) ⟨line, s⟩ = .halt .stuck := by
      unfold stackStep stepLine
      rw [List.getElem?_map, List.getElem?_map, hstep]
      rfl
    rw [hnone]
    exact fun hne => absurd rfl hne
  | some step =>
    have hop : (steps.map Step.op)[line]? = some step.op := by
      rw [List.getElem?_map, hstep]
      rfl
    have hanswers := h line step hstep s t hR
    rw [stackStep_eq hop]
    generalize step.op.exec s = effect at hanswers
    cases effect with
    | next s' =>
      obtain ⟨t', hadvances, hR'⟩ := hanswers
      rw [← offset_succ hstep] at hadvances
      exact ⟨_, hadvances, rfl, hR'⟩
    | jump target s' =>
      unfold Effect.follow
      dsimp only
      cases hresolve : resolve ((steps.map Step.op).map Op.line) target with
      | none => exact fun hne => absurd rfl hne
      | some k =>
        obtain ⟨t', hadvances, hR'⟩ := hanswers _ (hexpands.resolve_eq hdistinct hresolve)
        exact ⟨_, hadvances, rfl, hR'⟩
    | stop o =>
      intro _
      obtain ⟨line', o', hends, hstops⟩ := hanswers
      exact ⟨_, hends, hstops⟩
    | stuck => exact fun hne => absurd rfl hne

/-- From the start on, the lines end as the program ends. -/
structure Realizes (exec : Instr → τ → Effect τ π) (lines : List (Line Instr))
    (Stops : Nat → StackStop → Nat → π → Prop) (p : Program) (start : Point τ) : Prop where
  returns : ∀ v, p.Returns v → ∃ pos line o, Ends (stepLine exec lines) start (.stopped line o) ∧
    Stops pos (.returned v) line o
  /-- A failure ends right behind the label of its handler. -/
  fails : ∀ e, p.FailsWith e → ∃ kind code k line o, e.trapKind? = some kind ∧
    trapCode? kind = some code ∧ lines[k]? = some (.label (.trap kind)) ∧
    Ends (stepLine exec lines) start (.stopped line o) ∧ Stops (k + 1) (.aborted code) line o
  diverges : p.Diverges → Forever (stepLine exec lines) start

namespace Realizes

variable {lines : List (Line Instr)} {p : Program} {start : Point τ}
  (h : Realizes exec lines Stops p start)

include h

/-- Where the lines stop, the program has a value or has failed. -/
theorem origin {line : Nat} {o : π} (hends : Ends (stepLine exec lines) start (.stopped line o)) :
    (∃ v pos, p.Returns v ∧ Stops pos (.returned v) line o) ∨
      ∃ kind code k, p.FailsAs kind ∧ trapCode? kind = some code ∧
        lines[k]? = some (.label (.trap kind)) ∧ Stops (k + 1) (.aborted code) line o := by
  rcases p.ends_or_diverges with ⟨v, hv⟩ | ⟨e, he⟩ | hdiverges
  · obtain ⟨pos, line', o', hends', hstops⟩ := h.returns v hv
    cases hends.unique hends'
    exact .inl ⟨v, pos, hv, hstops⟩
  · obtain ⟨kind, code, k, line', o', hkind, hcode, hlabel, hends', hstops⟩ := h.fails e he
    cases hends.unique hends'
    exact .inr ⟨kind, code, k, ⟨e, he, hkind⟩, hcode, hlabel, hstops⟩
  · exact absurd (h.diverges hdiverges) hends.not_forever

theorem diverges_iff : p.Diverges ↔ Forever (stepLine exec lines) start := by
  refine ⟨h.diverges, fun hforever => ?_⟩
  rcases p.ends_or_diverges with ⟨v, hv⟩ | ⟨e, he⟩ | hdiverges
  · obtain ⟨pos, line, o, hends, -⟩ := h.returns v hv
    exact absurd hforever hends.not_forever
  · obtain ⟨kind, code, k, line, o, -, -, -, hends, -⟩ := h.fails e he
    exact absurd hforever hends.not_forever
  · exact hdiverges

theorem failsAs {kind : String} (hfails : p.FailsAs kind) : ∃ code k line o,
    trapCode? kind = some code ∧ lines[k]? = some (.label (.trap kind)) ∧
      Ends (stepLine exec lines) start (.stopped line o) ∧ Stops (k + 1) (.aborted code) line o := by
  obtain ⟨e, he, hkind⟩ := hfails
  obtain ⟨kind', code, k, line, o, hkind', hcode, hlabel, hends, hstops⟩ := h.fails e he
  cases hkind.symm.trans hkind'
  exact ⟨code, k, line, o, hcode, hlabel, hends, hstops⟩

/-- A machine that has all instructions of the lines ends likewise. -/
theorem execIf {fits : Instr → Bool} (hfits : ∀ i, .instr i ∈ lines → fits i = true) :
    Realizes (execIf fits exec) lines Stops p start := by
  obtain ⟨hreturns, hfails, hdiverges⟩ := h
  rw [← stepLine_execIf hfits] at hreturns hfails hdiverges
  exact ⟨hreturns, hfails, hdiverges⟩

/-- A program has a value, fails in one of three ways or diverges. -/
theorem total : (∃ v, p.Returns v) ∨ (∃ span, p.FailsWith (.divisionByZero span)) ∨
    (∃ name span, p.FailsWith (.unboundVariable name span)) ∨
    (∃ n span, p.FailsWith (.negativeExponent n span)) ∨ p.Diverges := by
  rcases p.ends_or_diverges with hv | ⟨e, he⟩ | hdiverges
  · exact .inl hv
  · obtain ⟨kind, -, -, -, -, hkind, -⟩ := h.fails e he
    cases e with
    | divisionByZero span => exact .inr (.inl ⟨span, he⟩)
    | unboundVariable name span => exact .inr (.inr (.inl ⟨name, span, he⟩))
    | negativeExponent n span => exact .inr (.inr (.inr (.inl ⟨n, span, he⟩)))
    | targetNotVariable => cases hkind
  · exact .inr (.inr (.inr (.inr hdiverges)))

end Realizes

/-- The lines of an assembled program end as the program ends, if they answer its steps and bring
the state that the function is entered in. -/
theorem realizes_of_assembled {target : Target} {p : Program} {start : Point τ} {t : τ}
    (hassembled : Assembled target p steps) (hexpands : Expands expand steps)
    (h : ∀ (k : Nat) step, steps[k]? = some step → ∀ s t, R s t →
      Answers exec (steps.flatMap expand) R Stops (step.op.exec s) (offset expand steps k)
        (expand step).length t)
    (hstart : Reaches (stepLine exec (steps.flatMap expand)) start ⟨offset expand steps 3, t⟩)
    (hR : R (.entered p.slots.length) t) :
    Realizes exec (steps.flatMap expand) Stops p start := by
  have hsim := simulates_of_answers hexpands hassembled.distinct h
  refine ⟨fun v hv => ?_, fun e he => ?_, fun hdiverges n => ?_⟩
  · obtain ⟨line, hends⟩ := hassembled.returns v hv
    obtain ⟨o, hends', hlike⟩ := hsim.ends (t := ⟨_, t⟩) ⟨rfl, hR⟩ hends nofun
    cases o with
    | stuck => cases hlike
    | stopped line' o => exact ⟨_, line', o, hstart.ends hends', hlike⟩
  · obtain ⟨kind, code, hkind, hcode⟩ := hassembled.handled e he
    obtain ⟨line, hlabel, hends⟩ := hassembled.fails e he kind code hkind hcode
    obtain ⟨hplace, hnext⟩ := hexpands.getElem?_label hlabel
    obtain ⟨o, hends', hlike⟩ := hsim.ends (t := ⟨_, t⟩) ⟨rfl, hR⟩ hends nofun
    cases o with
    | stuck => cases hlike
    | stopped line' o =>
      refine ⟨kind, code, _, line', o, hkind, hcode, hplace, hstart.ends hends', ?_⟩
      rw [← hnext]
      exact hlike
  · have hforever := hsim.forever (t := ⟨_, t⟩) ⟨rfl, hR⟩ (hassembled.diverges hdiverges)
    exact hstart.lasts (hforever n)

/-! ## Entering a program -/

section Entering

variable {target : Target} {p : Program} (hassembled : Assembled target p steps)

include hassembled

/-- The instructions of the prologue stand behind the entry. -/
theorem exists_entry (hexpands : Expands expand steps) (is : List Instr)
    (hprologue : expand ⟨.prologue defaultEntry p.slots.length, []⟩ =
      .label (.named defaultEntry) :: is.map .instr) :
    ∃ entry, resolve (steps.flatMap expand) (.named defaultEntry) = some entry ∧
      Placed (steps.flatMap expand) entry (.label (.named defaultEntry) :: is.map .instr) ∧
      offset expand steps 3 = entry + 1 + is.length := by
  obtain ⟨rest, hsteps, -⟩ := hassembled.opening
  have hstep : steps[2]? = some ⟨.prologue defaultEntry p.slots.length, []⟩ := by
    rw [hsteps]
    rfl
  have hplaced : Placed (steps.flatMap expand) _ _ := placed_expand hstep
  rw [hprologue] at hplaced
  have hdistinct := hexpands.distinct hassembled.distinct
  refine ⟨_, resolve_of_distinct hdistinct hplaced.head, hplaced, ?_⟩
  rw [offset_succ hstep, hprologue, List.length_cons, List.length_map]
  omega

/-- From the entry on, the lines of an assembled program end as the program ends, if the prologue
brings the state that the function is entered in and the lines answer the steps from there. -/
theorem realizes_of_entering (hexpands : Expands expand steps) {is : List Instr}
    (hprologue : expand ⟨.prologue defaultEntry p.slots.length, []⟩ =
      .label (.named defaultEntry) :: is.map .instr)
    (h : ∀ step ∈ steps, ∀ lines pos s t, Distinct lines → Placed lines pos (expand step) →
      R s t → Answers exec lines R Stops (step.op.exec s) pos (expand step).length t)
    {entry : Nat} (hentry : resolve (steps.flatMap expand) (.named defaultEntry) = some entry)
    {start t : τ} (hrun : runStraight exec is start = some t) (hR : R (.entered p.slots.length) t) :
    Realizes exec (steps.flatMap expand) Stops p ⟨entry, start⟩ := by
  obtain ⟨entry', hentry', hplaced, hoffset⟩ := exists_entry hassembled hexpands is hprologue
  cases hentry.symm.trans hentry'
  have hlabel : stepLine exec (steps.flatMap expand) ⟨entry, start⟩ = .go ⟨entry + 1, start⟩ :=
    step_label hplaced.head
  have hstart := (Advances.of_step hlabel).reaches.trans (reaches_straight hplaced.tail hrun)
  rw [← hoffset] at hstart
  have hdistinct := hexpands.distinct hassembled.distinct
  exact realizes_of_assembled hassembled hexpands (fun k step hstep s t hR =>
    h step (List.mem_of_getElem? hstep) _ _ s t hdistinct (placed_expand hstep) hR) hstart hR

/-- What holds of the instructions of the opening and of the rest holds of all instructions. -/
theorem forall_instr_of_assembled {P : Instr → Prop}
    (hopening : ∀ op ∈ Op.opening p.slots.length, ∀ i, .instr i ∈ expand ⟨op, []⟩ → P i)
    (hbehind : ∀ step : Step, step.op.BehindOpening p.slots.length →
      ∀ i, .instr i ∈ expand step → P i) :
    ∀ i, .instr i ∈ steps.flatMap expand → P i := by
  intro i hi
  obtain ⟨rest, hsteps, hrest⟩ := hassembled.opening
  obtain ⟨step, hstep, hi⟩ := List.mem_flatMap.1 hi
  rw [hsteps] at hstep
  rcases List.mem_append.1 hstep with hstep | hstep
  · obtain ⟨op, hop, rfl⟩ := List.mem_map.1 hstep
    exact hopening op hop i hi
  · exact hbehind step (hrest step hstep) i hi

end Entering

end Expansion

end Imp32.Assembly
