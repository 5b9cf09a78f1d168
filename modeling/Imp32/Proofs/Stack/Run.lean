import Imp32.Proofs.Backend.Expansion
import Imp32.Proofs.Stack.Compiled
import Imp32.Proofs.Stack.Discipline

/-!
# Runs that keep the discipline

Code keeps the discipline of the stack (`KeepsStack`) if its instructions follow rules that are
sound on the machine (`Discipline.Sound`). A shape says what is known in front of a line, and one
step of the machine brings a state that has the shape of its line to a state that has the shape of
the next one (`Framed.step_fits`). By induction on the number of steps, that holds of every state
that a run from the entry reaches (`Framed.run_fits`), and it gives what the discipline asks for.
-/

namespace Imp32.Assembly

/-- What is known of the result register is so, where `copied` says that the register beside it is a
copy and `tested` that whether it is a word has been computed. -/
def Known.Holds (known : Known) (result : Int) (copied tested : Prop) : Prop :=
  match known with
  | .any => True
  | .word | .opened => IsWord result
  | .loaded => IsCell result
  | .copied => IsCell result ∧ copied
  | .tested => IsCell result ∧ tested

/-- Rules for the instructions of a platform, with what they mean for its states. -/
structure Discipline {Instr σ ο : Type} (t : Platform Instr σ ο) extends Rules t.net where
  /-- The registers that give access to a frame do so. -/
  Based : Frame → σ → Prop
  /-- What is known of the result register is so. -/
  Knows : Known → σ → Prop
  /-- The instruction accesses the first slots only. -/
  Within : Nat → Instr → Prop

namespace Discipline

variable {Instr σ ο : Type} {t : Platform Instr σ ο}

/-- A state has a shape. -/
structure Fits (r : Discipline t) (f : Frame) (P : Origin) (a : Shape) (s : σ) : Prop where
  sp : t.sp s = f.base - 16 * a.depth
  based : r.Based f s
  known : r.Knows a.known s
  keeps : f.Keeps P a.filled (t.memory s)

/-- The rules are sound on the machine, and the code of the platform follows them. -/
structure Sound (r : Discipline t) : Prop where
  lines : ∀ step, t.target.lines step = (t.expand step).map (Line.text t.text)
  covers : r.toRules.Covers t.target t.expand
  expands : ∀ {steps : List Step}, (∀ step ∈ steps, ∃ k, step = step.op.step t.target k) →
    Expands t.expand steps
  within : ∀ {step : Step} {n : Nat}, step.op.Inner n →
    ∀ i, .instr i ∈ t.expand step → r.Within n i
  /-- A jump changes nothing. -/
  jump : ∀ {i s l s'}, t.exec i s = .jump l s' → r.goal? i = some l ∧ s' = s
  next : ∀ {f P a b i s s'}, r.Fits f P a s → r.Flow i a b → r.Within f.slots i →
    t.exec i s = .next s' → r.Fits f (P.after (t.writes i s) (t.memory s')) b s'
  writes : ∀ {f P a b i s address v}, r.Fits f P a s → r.Flow i a b →
    t.writes i s = some (address, v) → address + 8 ≤ f.base
  reads : ∀ {f P a b i s address}, r.Fits f P a s → r.Flow i a b →
    t.reads i s = some address → ∃ k < a.filled, address = f.operand k
  /-- Neither the epilogue nor a handler jumps. -/
  ends : ∀ {step : Step}, step.op = .epilogue ∨ (∃ code, step.op = .trap code) →
    ∀ i, .instr i ∈ t.expand step → r.goal? i = none
  /-- The epilogue starts with an instruction that handles no operand. -/
  epilogue : ∃ i rest, t.expand ⟨.epilogue, []⟩ = .instr i :: rest ∧
    ∀ s, t.writes i s = none ∧ t.reads i s = none
  enter : ∀ n : Nat, ∃ is, t.expand ⟨.prologue defaultEntry n, []⟩ =
    .label (.named defaultEntry) :: is.map .instr ∧ ∀ s, ∃ s', runStraight t.exec is s = some s' ∧
      ∀ P, r.Fits (t.frame s n) P ⟨0, .any⟩ s'
  frame : ∀ s (n : Nat), (t.frame s n).slots = n ∧ (t.Aligned s → (t.frame s n).base % 16 = 0) ∧
    ∀ b ∈ t.saved s, (t.frame s n).base ≤ b

end Discipline

namespace Discipline

variable {Instr σ ο : Type} {t : Platform Instr σ ο} {r : Discipline t}

/-! ## One step -/

/-- A shape in front of a line of code: the lines before it lead there, and the rest goes on from
there. -/
structure At (r : Discipline t) (code : List (Line Instr)) (k : Nat) (a : Shape) : Prop where
  le : k ≤ code.length
  before : r.Passes (code.take k) ⟨0, .any⟩ a
  rest : r.Passes (code.drop k) a ⟨0, .word⟩

/-- Checked code stands between lines and others that do not lead back into it. -/
structure Framed (r : Discipline t) (slots : Nat) (before code after : List (Line Instr)) :
    Prop where
  distinct : Distinct (before ++ code ++ after)
  checked : r.Checked [] code ⟨0, .any⟩ ⟨0, .word⟩
  within : ∀ i, .instr i ∈ code → r.Within slots i
  /-- The labels in front of the end are not written like those of handlers. -/
  apart : ∀ l, .label l ∈ before ++ code → ∀ l' : Label, l'.isTrap = true → l'.handled = true →
    l.text ≠ l'.text
  ends : ∀ i, .instr i ∈ after → r.goal? i = none
  handlers : ∀ l, .label l ∈ after → l.isTrap = true
  epilogue : ∃ i rest, after = .instr i :: rest ∧ ∀ s, t.writes i s = none ∧ t.reads i s = none

section Code

variable {slots : Nat} {before code after : List (Line Instr)} {k : Nat} {a b : Shape}
  {x : Line Instr}

theorem At.depth_eq (h : r.At code k a) : (a.depth : Int) = netOf t.net (code.take k) := by
  simpa using h.before.depth_eq

theorem exists_at (h : r.Checked [] code ⟨0, .any⟩ ⟨0, .word⟩) (hk : k ≤ code.length) :
    ∃ a, r.At code k a := by
  have hpasses := h.passes
  rw [← List.take_append_drop k code] at hpasses
  obtain ⟨a, hbefore, hrest⟩ := hpasses.split
  exact ⟨a, hk, hbefore, hrest⟩

theorem At.rest_cons (h : r.At code k a) (hx : code[k]? = some x) :
    r.Passes (x :: code.drop (k + 1)) a ⟨0, .word⟩ := by
  obtain ⟨hk, rfl⟩ := List.getElem?_eq_some_iff.1 hx
  rw [← List.drop_eq_getElem_cons hk]
  exact h.rest

/-- In front of a label is a word in the result register. -/
theorem At.label {l : Label} (h : r.At code k a) (hl : code[k]? = some (.label l)) :
    a.known = .word ∧ r.At code (k + 1) a := by
  have hk := (List.getElem?_eq_some_iff.1 hl).1
  cases h.rest_cons hl with
  | label hrest =>
    refine ⟨rfl, hk, ?_, hrest⟩
    rw [List.take_add_one, hl]
    exact h.before.append (.label (.nil _))

theorem At.instr {i : Instr} (h : r.At code k a) (hi : code[k]? = some (.instr i)) :
    ∃ b, r.Flow i a b ∧ r.At code (k + 1) b := by
  have hk := (List.getElem?_eq_some_iff.1 hi).1
  cases h.rest_cons hi with
  | instr hflow hrest =>
    refine ⟨_, hflow, hk, ?_, hrest⟩
    rw [List.take_add_one, hi]
    exact h.before.append (.instr hflow (.nil _))

/-- Code has labels and instructions only. -/
theorem At.line (h : r.At code k a) (hx : code[k]? = some x) :
    (∃ l, x = .label l) ∨ ∃ i, x = .instr i := by
  cases h.rest_cons hx with
  | instr _ _ => exact .inr ⟨_, rfl⟩
  | label _ => exact .inl ⟨_, rfl⟩

theorem getElem?_code (before after : List (Line Instr)) (hk : k < code.length) :
    (before ++ code ++ after)[before.length + k]? = code[k]? := by
  rw [List.append_assoc, List.getElem?_append_right (Nat.le_add_right _ _), Nat.add_sub_cancel_left,
    List.getElem?_append_left hk]

theorem getElem?_after (before code after : List (Line Instr)) (k : Nat) :
    (before ++ code ++ after)[before.length + code.length + k]? = after[k]? := by
  rw [← List.length_append, List.getElem?_append_right (Nat.le_add_right _ _),
    Nat.add_sub_cancel_left]

/-- A line adds to the number of operands what it says. -/
theorem depthAt_succ {lines : List (Line Instr)} {first : Nat} (hfirst : first ≤ k)
    (hx : lines[k]? = some x) :
    depthAt t lines first k + x.net t.net = depthAt t lines first (k + 1) := by
  have hk := (List.getElem?_eq_some_iff.1 hx).1
  unfold depthAt
  rw [List.take_add_one, hx, List.drop_append_of_le_length]
  · simp
  · rw [List.length_take]
    omega

namespace Framed

variable (h : r.Framed slots before code after)

include h

/-- A jump of the code goes to a label in it with the same shape, or behind it to a handler. -/
theorem resolve_goal {i : Instr} {l : Label} (hat : r.At code k a)
    (hi : code[k]? = some (.instr i)) (hgoal : r.goal? i = some l) :
    (l.isTrap = false ∧ ∃ k', k' < code.length ∧ code[k']? = some (.label l) ∧ r.At code k' a ∧
      resolve (before ++ code ++ after) l = some (before.length + k')) ∨
    (l.isTrap = true ∧ ∀ k', resolve (before ++ code ++ after) l = some k' →
      before.length + code.length < k' ∧
      ∃ l', (before ++ code ++ after)[k']? = some (.label l') ∧ l'.isTrap = true) := by
  obtain ⟨b, hflow, -⟩ := hat.instr hi
  cases hl : l.isTrap with
  | false =>
    obtain ⟨k', hk', hdepth⟩ := h.checked.exists_label hi hgoal hl
    have hlt := (List.getElem?_eq_some_iff.1 hk').1
    obtain ⟨a', hat'⟩ := exists_at h.checked (Nat.le_of_lt hlt)
    have heq : a' = a := by
      have hword := (r.level hflow hgoal hl).1
      have hword' := (hat'.label hk').1
      have hdepths : (a'.depth : Int) = a.depth := by rw [hat'.depth_eq, hat.depth_eq, hdepth]
      obtain ⟨depth, known⟩ := a
      obtain ⟨depth', known'⟩ := a'
      dsimp only at hword hword' hdepths
      rw [hword, hword', Int.natCast_inj.1 hdepths]
    subst heq
    refine .inl ⟨rfl, k', hlt, hk', hat', resolve_of_distinct h.distinct ?_⟩
    rw [getElem?_code before after hlt, hk']
  | true =>
    refine .inr ⟨rfl, fun k' hk' => ?_⟩
    obtain ⟨l', hl', htext⟩ := exists_of_resolve hk'
    have hbehind : before.length + code.length ≤ k' := by
      refine Nat.not_lt.1 fun hlt => ?_
      rw [← List.length_append] at hlt
      rw [List.getElem?_append_left hlt] at hl'
      exact h.apart l' (List.mem_of_getElem? hl') l hl (r.handled hflow hgoal) htext
    obtain ⟨j, rfl⟩ := Nat.exists_eq_add_of_le hbehind
    have hafter := hl'
    rw [getElem?_after] at hafter
    refine ⟨?_, l', hl', h.handlers l' (List.mem_of_getElem? hafter)⟩
    obtain ⟨i', rest, heq, -⟩ := h.epilogue
    cases j with
    | zero =>
      rw [heq] at hafter
      cases hafter
    | succ j => omega

/-! ## Static depth -/

omit h in
/-- In front of a line of code, the number of operands is that of its shape. -/
theorem depthAt_code (hat : r.At code k a) :
    depthAt t (before ++ code ++ after) before.length (before.length + k) = a.depth := by
  unfold depthAt
  rw [List.drop_take, Nat.add_sub_cancel_left, List.append_assoc, List.drop_left,
    List.take_append_of_le_length hat.le, hat.depth_eq]

/-- Behind the first line, instructions that may jump are in the code. -/
theorem exists_of_goal {i : Instr} {l : Label} (hfirst : before.length ≤ k)
    (hi : (before ++ code ++ after)[k]? = some (.instr i)) (hgoal : r.goal? i = some l) :
    ∃ j < code.length, k = before.length + j ∧ code[j]? = some (.instr i) := by
  obtain ⟨j, rfl⟩ := Nat.exists_eq_add_of_le hfirst
  by_cases hj : j < code.length
  · rw [getElem?_code before after hj] at hi
    exact ⟨j, hj, rfl, hi⟩
  · obtain ⟨j', rfl⟩ := Nat.exists_eq_add_of_le (Nat.not_lt.1 hj)
    rw [← Nat.add_assoc, getElem?_after] at hi
    rw [h.ends i (List.mem_of_getElem? hi)] at hgoal
    cases hgoal

/-- A branch that goes to no handler goes to a label of the code at the same depth. -/
theorem exists_branch {i : Instr} {l : Label} (hfirst : before.length ≤ k)
    (hi : (before ++ code ++ after)[k]? = some (.instr i)) (hgoal : r.goal? i = some l)
    (hl : l.isTrap = false) : t.net i = 0 ∧ ∃ k', resolve (before ++ code ++ after) l = some k' ∧
      before.length ≤ k' ∧ k' < before.length + code.length ∧
      (before ++ code ++ after)[k']? = some (.label l) ∧
      depthAt t (before ++ code ++ after) before.length k' =
        depthAt t (before ++ code ++ after) before.length k := by
  obtain ⟨j, hj, rfl, hcode⟩ := h.exists_of_goal hfirst hi hgoal
  obtain ⟨a, hat⟩ := exists_at h.checked (Nat.le_of_lt hj)
  obtain ⟨b, hflow, -⟩ := hat.instr hcode
  have hnet := r.depth_eq hflow
  rw [(r.level hflow hgoal hl).2] at hnet
  rcases h.resolve_goal hat hcode hgoal with ⟨-, k', hk', hlabel, hat', hresolve⟩ | ⟨htrap, -⟩
  · refine ⟨by omega, _, hresolve, Nat.le_add_right _ _, Nat.add_lt_add_left hk' _, ?_, ?_⟩
    · rw [getElem?_code before after hk', hlabel]
    · rw [depthAt_code hat', depthAt_code hat]
  · rw [hl] at htrap
    cases htrap

/-- A path adds as many operands as its lines say. -/
theorem walk_eq (hsound : r.Sound) {d : Int}
    (hwalk : Walk t (before ++ code ++ after) before.length k d) :
    before.length ≤ k ∧ d = depthAt t (before ++ code ++ after) before.length k := by
  induction hwalk with
  | start =>
    refine ⟨Nat.le_refl _, ?_⟩
    unfold depthAt
    rw [List.drop_take, Nat.sub_self, List.take_zero]
    rfl
  | @step k k' d x s s' _ hx hstep hlabel ih =>
    obtain ⟨hfirst, rfl⟩ := ih
    obtain ⟨y, hy, ⟨-, hgo⟩ | ⟨i, rfl, ⟨s₁, -, hgo⟩ | ⟨l, s₁, k₁, hexec, hresolve, hgo⟩⟩⟩ :=
      step_cases hstep
    · cases hgo
      exact ⟨Nat.le_succ_of_le hfirst, depthAt_succ hfirst hx⟩
    · cases hgo
      exact ⟨Nat.le_succ_of_le hfirst, depthAt_succ hfirst hx⟩
    · cases hgo
      cases hx.symm.trans hy
      have hgoal := (hsound.jump hexec).1
      cases hl : l.isTrap with
      | false =>
        obtain ⟨hnet, k₂, hresolve', hfirst', -, -, hdepth⟩ := h.exists_branch hfirst hx hgoal hl
        cases hresolve.symm.trans hresolve'
        exact ⟨hfirst', by rw [hdepth, Line.net, hnet, Int.add_zero]⟩
      | true =>
        obtain ⟨j, hj, rfl, hcode⟩ := h.exists_of_goal hfirst hx hgoal
        obtain ⟨a, hat⟩ := exists_at h.checked (Nat.le_of_lt hj)
        rcases h.resolve_goal hat hcode hgoal with ⟨hfalse, -⟩ | ⟨-, hbehind⟩
        · rw [hl] at hfalse
          cases hfalse
        · obtain ⟨-, l', hl', htrap⟩ := hbehind k' hresolve
          rw [hlabel l' hl'] at htrap
          cases htrap

theorem leveled (hsound : r.Sound) : Leveled t (before ++ code ++ after) before.length
    (before.length + code.length) where
  walk k d hwalk := (h.walk_eq hsound hwalk).2
  branch k i s l s' hfirst hi hexec hl :=
    (h.exists_branch hfirst hi (hsound.jump hexec).1 hl).2
  nonneg k hfirst hlast := by
    obtain ⟨j, rfl⟩ := Nat.exists_eq_add_of_le hfirst
    obtain ⟨a, hat⟩ := exists_at h.checked (Nat.le_of_add_le_add_left hlast)
    rw [depthAt_code hat]
    exact Int.natCast_nonneg _
  epilogue := by
    have hat : r.At code code.length ⟨0, .word⟩ :=
      ⟨Nat.le_refl _, by rw [List.take_length]; exact h.checked.passes,
        by rw [List.drop_length]; exact .nil _⟩
    rw [depthAt_code hat]
    rfl

/-! ## Runs -/

variable {f : Frame} {P : Origin} {s : σ} {q : Point σ}

/-- One step of the code brings a state with the shape of its line to a state with the shape of the
next one, or behind the code. -/
theorem step_fits (hsound : r.Sound) (hf : f.slots = slots) (hat : r.At code k a)
    (hk : k < code.length) (hfits : r.Fits f P a s)
    (hstep : stepLine t.exec (before ++ code ++ after) ⟨before.length + k, s⟩ = .go q) :
    before.length + code.length < q.line ∨ ∃ k' a' written, q.line = before.length + k' ∧
      r.At code k' a' ∧ r.Fits f (P.after written (t.memory q.state)) a' q.state ∧
      (written = none ∨ ∃ i, code[k]? = some (.instr i) ∧ written = t.writes i s) := by
  have hstill : ∀ {b : Shape}, r.Fits f P b s → r.Fits f (P.after none (t.memory s)) b s :=
    fun hb => ⟨hb.sp, hb.based, hb.known, hb.keeps.after none⟩
  obtain ⟨x, hx, hcases⟩ := step_cases hstep
  rw [getElem?_code before after hk] at hx
  rcases hcases with ⟨hx', rfl⟩ | ⟨i, rfl, ⟨s', hexec, rfl⟩ | ⟨l, s', k', hexec, hresolve, rfl⟩⟩
  · -- a label leaves the state and its shape alone
    rcases hat.line hx with ⟨l, rfl⟩ | ⟨i, rfl⟩
    · exact .inr ⟨k + 1, a, none, rfl, (hat.label hx).2, hstill hfits, .inl rfl⟩
    · exact absurd rfl (hx' i)
  · obtain ⟨b, hflow, hnext⟩ := hat.instr hx
    have hwithin : r.Within f.slots i := hf ▸ h.within i (List.mem_of_getElem? hx)
    exact .inr ⟨k + 1, b, t.writes i s, rfl, hnext, hsound.next hfits hflow hwithin hexec,
      .inr ⟨i, hx, rfl⟩⟩
  · obtain ⟨hgoal, rfl⟩ := hsound.jump hexec
    rcases h.resolve_goal hat hx hgoal with ⟨-, k₁, -, -, hat', hresolve'⟩ | ⟨-, hbehind⟩
    · cases hresolve.symm.trans hresolve'
      exact .inr ⟨k₁, a, none, rfl, hat', hstill hfits, .inl rfl⟩
    · exact .inl (hbehind k' hresolve).1

/-- The lines behind the code do not lead back. -/
theorem step_behind (hsound : r.Sound) {line : Nat} (hline : before.length + code.length ≤ line)
    (hstep : stepLine t.exec (before ++ code ++ after) ⟨line, s⟩ = .go q) :
    before.length + code.length < q.line := by
  obtain ⟨x, hx, ⟨-, rfl⟩ | ⟨i, rfl, ⟨s', -, rfl⟩ | ⟨l, s', k', hexec, -, -⟩⟩⟩ := step_cases hstep
  · exact Nat.lt_succ_of_le hline
  · exact Nat.lt_succ_of_le hline
  · obtain ⟨j, rfl⟩ := Nat.exists_eq_add_of_le hline
    rw [getElem?_after] at hx
    have hgoal := (hsound.jump hexec).1
    rw [h.ends i (List.mem_of_getElem? hx)] at hgoal
    cases hgoal

omit h in
/-- What a step leaves of known origin is of known origin after it. -/
theorem written_succ {start q' : Point σ} {n : Nat} {written : Option (Int × Int)} {address v : Int}
    (hrun : runFor (stepLine t.exec (before ++ code ++ after)) n start = .go q)
    (hrun' : runFor (stepLine t.exec (before ++ code ++ after)) (n + 1) start = .go q')
    (hk : k < code.length) (hline : q.line = before.length + k)
    (hwritten : written = none ∨ ∃ i, code[k]? = some (.instr i) ∧ written = t.writes i q.state)
    (horigin : (Written t (before ++ code ++ after) before.length (before.length + code.length)
      start n).after written (t.memory q'.state) address v) :
    Written t (before ++ code ++ after) before.length (before.length + code.length) start (n + 1)
      address v := by
  obtain ⟨hmemory, ⟨m, q₁, i, hm, hrun₁, hfirst, hlast, hi, hwrites, hkept⟩ | rfl⟩ := horigin
  · refine ⟨m, q₁, i, Nat.lt_succ_of_lt hm, hrun₁, hfirst, hlast, hi, hwrites, fun j hj hjn => ?_⟩
    rcases Nat.lt_or_eq_of_le hjn with hjn | rfl
    · exact hkept j hj (Nat.le_of_lt_succ hjn)
    · exact ⟨q', hrun', hmemory⟩
  · rcases hwritten with hnone | ⟨i, hi, hwrites⟩
    · cases hnone
    refine ⟨n, q, i, Nat.lt_succ_self n, hrun, by omega, by omega, ?_, hwrites.symm, ?_⟩
    · rw [hline, getElem?_code before after hk, hi]
    · intro j hj hjn
      obtain rfl : j = n + 1 := by omega
      exact ⟨q', hrun', hmemory⟩

/-- From the first line on, every state that a run reaches has the shape of its line, or is behind
the code. -/
theorem run_fits (hsound : r.Sound) (hf : f.slots = slots) {start : Point σ} {m : Nat}
    (hstart : runFor (stepLine t.exec (before ++ code ++ after)) m start = .go ⟨before.length, s⟩)
    (hfits : ∀ P, r.Fits f P ⟨0, .any⟩ s) {n : Nat}
    (hrun : runFor (stepLine t.exec (before ++ code ++ after)) (m + n) start = .go q) :
    before.length + code.length < q.line ∨ ∃ k a, q.line = before.length + k ∧ r.At code k a ∧
      r.Fits f (Written t (before ++ code ++ after) before.length (before.length + code.length)
        start (m + n)) a q.state := by
  induction n generalizing q with
  | zero =>
    cases hstart.symm.trans hrun
    exact .inr ⟨0, ⟨0, .any⟩, rfl, ⟨Nat.zero_le _, .nil _, h.checked.passes⟩, hfits _⟩
  | succ n ih =>
    rw [← Nat.add_assoc] at hrun ⊢
    obtain ⟨q₁, hrun₁, hstep⟩ := exists_of_runFor_succ hrun
    rcases ih hrun₁ with hbehind | ⟨k, a, hline, hat, hfits₁⟩
    · exact .inl (h.step_behind hsound (Nat.le_of_lt hbehind) hstep)
    obtain ⟨line, s₁⟩ := q₁
    obtain rfl : line = before.length + k := hline
    rcases Nat.lt_or_eq_of_le hat.le with hk | hk
    · rcases h.step_fits hsound hf hat hk hfits₁ hstep with
        hbehind | ⟨k', a', written, hline', hat', hfits', hwritten⟩
      · exact .inl hbehind
      · refine .inr ⟨k', a', hline', hat', hfits'.sp, hfits'.based, hfits'.known, ?_⟩
        exact hfits'.keeps.imp fun _ _ => written_succ hrun₁ hrun hk rfl hwritten
    · exact .inl (h.step_behind hsound (by omega) hstep)

/-- A state that has the shape of its line is safe. -/
theorem safe (hsound : r.Sound) {start : σ} (hstart : t.Aligned start)
    (hline : q.line = before.length + k) (hat : r.At code k a)
    (hfits : r.Fits (t.frame start slots) P a q.state) :
    Safe t (before ++ code ++ after) (t.frame start slots) (t.saved start) P
      (depthAt t (before ++ code ++ after) before.length q.line) q := by
  obtain ⟨hslots, haligned, hsaved⟩ := hsound.frame start slots
  have hbase := haligned hstart
  have hsp := hfits.sp
  -- an instruction that handles operands is one of the code
  have hcases : ∀ i, (before ++ code ++ after)[q.line]? = some (.instr i) →
      (∃ b, r.Flow i a b) ∨ t.writes i q.state = none ∧ t.reads i q.state = none := by
    intro i hi
    rw [hline] at hi
    rcases Nat.lt_or_eq_of_le hat.le with hk | rfl
    · rw [getElem?_code before after hk] at hi
      obtain ⟨b, hflow, -⟩ := hat.instr hi
      exact .inl ⟨b, hflow⟩
    · obtain ⟨i', rest, heq, hnone⟩ := h.epilogue
      have hafter := getElem?_after before code after 0
      rw [Nat.add_zero, hi, heq] at hafter
      cases hafter
      exact .inr (hnone q.state)
  refine ⟨by rw [hline, depthAt_code hat, hsp], by omega, by omega, hfits.keeps.slots, ?_, ?_⟩
  · intro i hi address v hv
    rcases hcases i hi with ⟨b, hflow⟩ | ⟨hnone, -⟩
    · have hbelow := hsound.writes hfits hflow hv
      refine ⟨fun k hk => ?_, fun b hb => ?_⟩
      · have hslot := ((t.frame start slots).within k hk).1
        exact .inl (by omega)
      · have hregister := hsaved b hb
        exact .inl (by omega)
    · rw [hnone] at hv
      cases hv
  · intro i hi address haddress
    rcases hcases i hi with ⟨b, hflow⟩ | ⟨-, hnone⟩
    · obtain ⟨k, hk, rfl⟩ := hsound.reads hfits hflow haddress
      exact hfits.keeps.operands k hk
    · rw [hnone] at haddress
      cases haddress

/-- Runs from the entry are safe behind the prologue. -/
theorem guarded (hsound : r.Sound)
    (hbefore : ∃ pre, before = pre ++ t.expand ⟨.prologue defaultEntry slots, []⟩) :
    Guarded t (before ++ code ++ after) before.length (before.length + code.length) slots := by
  obtain ⟨pre, hbefore⟩ := hbefore
  have hplaced : Placed (before ++ code ++ after) pre.length
      (t.expand ⟨.prologue defaultEntry slots, []⟩) := by
    have hall := Placed.self (before ++ code ++ after)
    rw [List.append_assoc] at hall ⊢
    conv at hall => arg 3; rw [hbefore]
    have hleft := hall.left.right
    rwa [Nat.zero_add] at hleft
  obtain ⟨is, heq, henter⟩ := hsound.enter slots
  rw [heq] at hplaced
  refine ⟨pre.length, resolve_of_distinct h.distinct hplaced.head, fun s hs => ?_⟩
  obtain ⟨s', hstraight, hfits⟩ := henter s
  have hlength : before.length = pre.length + 1 + is.length := by
    rw [hbefore, heq, List.length_append, List.length_cons, List.length_map]
    omega
  have hrun : ∀ j ≤ is.length, ∃ s'', runFor (stepLine t.exec (before ++ code ++ after)) (j + 1)
      ⟨pre.length, s⟩ = .go ⟨pre.length + 1 + j, s''⟩ ∧ (j = is.length → s'' = s') := by
    intro j hj
    rw [runFor_succ (step_label hplaced.head)]
    exact runFor_straight hplaced.tail hstraight hj
  have hstart : runFor (stepLine t.exec (before ++ code ++ after)) (is.length + 1)
      ⟨pre.length, s⟩ = .go ⟨before.length, s'⟩ := by
    obtain ⟨s'', hrun', hlast⟩ := hrun is.length (Nat.le_refl _)
    rw [hrun', hlast rfl, hlength]
  refine ⟨⟨_, s', hstart⟩, fun n q hq hfirst hlast => ?_⟩
  have hn : is.length + 1 ≤ n := by
    refine Nat.not_lt.1 fun hlt => ?_
    cases n with
    | zero =>
      cases hq
      dsimp only at hfirst
      omega
    | succ j =>
      obtain ⟨s'', hrun', -⟩ := hrun j (by omega)
      cases hq.symm.trans hrun'
      dsimp only at hfirst
      omega
  obtain ⟨m, rfl⟩ := Nat.exists_eq_add_of_le hn
  rcases h.run_fits hsound (hsound.frame s slots).1 hstart hfits hq with
    hbehind | ⟨k, a, hline, hat, hshape⟩
  · omega
  · exact h.safe hsound hs hline hat hshape

end Framed

end Code

end Discipline

end Imp32.Assembly
