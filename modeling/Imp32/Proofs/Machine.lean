import Imp32.Assembly.Listing

/-!
# Machines that execute a listing

A machine takes one step at a time until it halts. `Reaches`, `Ends` and `Forever` speak of its
runs; the machine is deterministic, so at most one of its ends is reached, and none if it runs
forever. A machine simulates another one if it answers each step by at least one step of its own
(`Simulates`): then it ends where the other one ends and runs forever where the other one does.

`stepLine` executes a listing line by line, given what a single instruction does. Labels,
directives and comments take a step and do nothing.
-/

namespace Imp32

/-- What one step leads to. -/
inductive Next (σ ο : Type) where
  | go (s : σ)
  | halt (o : ο)

/-! ## Runs -/

section Runs

variable {σ ο : Type} {step : σ → Next σ ο} {s s' s'' : σ} {o o' : ο} {m n : Nat}

/-- Take a number of steps, or as many as there are. -/
def runFor (step : σ → Next σ ο) : Nat → σ → Next σ ο
  | 0, s => .go s
  | n + 1, s =>
    match step s with
    | .go s' => runFor step n s'
    | .halt o => .halt o

def Reaches (step : σ → Next σ ο) (s s' : σ) : Prop := ∃ n, runFor step n s = .go s'

/-- At least one step leads from one state to another. -/
def Advances (step : σ → Next σ ο) (s s' : σ) : Prop := ∃ n, runFor step (n + 1) s = .go s'

def Ends (step : σ → Next σ ο) (s : σ) (o : ο) : Prop := ∃ n, runFor step n s = .halt o

/-- The run takes this number of steps. -/
def Lasts (step : σ → Next σ ο) (n : Nat) (s : σ) : Prop := ∃ s', runFor step n s = .go s'

def Forever (step : σ → Next σ ο) (s : σ) : Prop := ∀ n, Lasts step n s

theorem runFor_succ (h : step s = .go s') : runFor step (n + 1) s = runFor step n s' := by
  show (match step s with
    | .go s' => runFor step n s'
    | .halt o => .halt o) = _
  rw [h]

theorem runFor_add (h : runFor step m s = .go s') :
    runFor step (m + n) s = runFor step n s' := by
  induction m generalizing s with
  | zero =>
    cases h
    rw [Nat.zero_add]
  | succ m ih =>
    cases hs : step s with
    | halt o =>
      unfold runFor at h
      rw [hs] at h
      cases h
    | go t =>
      rw [runFor_succ hs] at h
      rw [Nat.add_right_comm, runFor_succ hs]
      exact ih h

/-- A run that has halted takes no more steps. -/
theorem runFor_of_halt (h : runFor step m s = .halt o) : runFor step (m + n) s = .halt o := by
  induction m generalizing s with
  | zero => cases h
  | succ m ih =>
    cases hs : step s with
    | halt o' =>
      rw [Nat.add_right_comm]
      unfold runFor at h ⊢
      rw [hs] at h ⊢
      exact h
    | go t =>
      rw [runFor_succ hs] at h
      rw [Nat.add_right_comm, runFor_succ hs]
      exact ih h

/-- The last step of a run. -/
theorem exists_of_runFor_succ (h : runFor step (n + 1) s = .go s'') :
    ∃ s', runFor step n s = .go s' ∧ step s' = .go s'' := by
  cases hrun : runFor step n s with
  | halt o =>
    rw [runFor_of_halt hrun] at h
    cases h
  | go s' =>
    rw [runFor_add hrun] at h
    unfold runFor at h
    cases hs : step s' with
    | halt o =>
      rw [hs] at h
      cases h
    | go t =>
      rw [hs] at h
      cases h
      exact ⟨s', rfl, hs⟩

theorem Ends.unique (h : Ends step s o) (h' : Ends step s o') : o = o' := by
  obtain ⟨m, hm⟩ := h
  obtain ⟨n, hn⟩ := h'
  have hmn := runFor_of_halt (n := n) hm
  rw [Nat.add_comm, runFor_of_halt hn] at hmn
  cases hmn
  rfl

theorem Ends.not_forever (h : Ends step s o) : ¬Forever step s := by
  obtain ⟨n, hn⟩ := h
  intro hforever
  obtain ⟨s', hs'⟩ := hforever n
  rw [hn] at hs'
  cases hs'

theorem Reaches.refl (s : σ) : Reaches step s s := ⟨0, rfl⟩

theorem Reaches.trans (h : Reaches step s s') (h' : Reaches step s' s'') : Reaches step s s'' := by
  obtain ⟨m, hm⟩ := h
  obtain ⟨n, hn⟩ := h'
  exact ⟨m + n, (runFor_add hm).trans hn⟩

theorem Reaches.ends (h : Reaches step s s') (h' : Ends step s' o) : Ends step s o := by
  obtain ⟨m, hm⟩ := h
  obtain ⟨n, hn⟩ := h'
  exact ⟨m + n, (runFor_add hm).trans hn⟩

theorem Advances.of_step (h : step s = .go s') : Advances step s s' := ⟨0, runFor_succ h⟩

theorem Advances.reaches (h : Advances step s s') : Reaches step s s' := by
  obtain ⟨n, hn⟩ := h
  exact ⟨n + 1, hn⟩

theorem Advances.trans (h : Advances step s s') (h' : Reaches step s' s'') :
    Advances step s s'' := by
  obtain ⟨m, hm⟩ := h
  obtain ⟨n, hn⟩ := h'
  refine ⟨m + n, ?_⟩
  rw [Nat.add_right_comm, runFor_add hm, hn]

theorem Reaches.advances (h : Reaches step s s') (h' : Advances step s' s'') :
    Advances step s s'' := by
  obtain ⟨m, hm⟩ := h
  obtain ⟨n, hn⟩ := h'
  exact ⟨m + n, (runFor_add hm).trans hn⟩

theorem Ends.of_step (h : step s = .halt o) : Ends step s o := by
  refine ⟨1, ?_⟩
  unfold runFor
  rw [h]

theorem Lasts.zero (s : σ) : Lasts step 0 s := ⟨s, rfl⟩

theorem Lasts.mono (h : Lasts step n s) (hmn : m ≤ n) : Lasts step m s := by
  obtain ⟨s', hs'⟩ := h
  obtain ⟨k, rfl⟩ := Nat.exists_eq_add_of_le hmn
  cases hrun : runFor step m s with
  | go t => exact ⟨t, hrun⟩
  | halt o =>
    rw [runFor_of_halt hrun] at hs'
    cases hs'

theorem Advances.lasts (h : Advances step s s') (h' : Lasts step n s') : Lasts step (n + 1) s := by
  obtain ⟨m, hm⟩ := h
  obtain ⟨t, ht⟩ := h'
  have hrun : Lasts step (m + 1 + n) s := ⟨t, (runFor_add hm).trans ht⟩
  exact hrun.mono (by omega)

theorem Reaches.lasts (h : Reaches step s s') (h' : Lasts step n s') : Lasts step n s := by
  obtain ⟨m, hm⟩ := h
  obtain ⟨t, ht⟩ := h'
  have hrun : Lasts step (m + n) s := ⟨t, (runFor_add hm).trans ht⟩
  exact hrun.mono (by omega)

end Runs

/-! ## Simulation -/

section Simulation

variable {σ τ ο π : Type} {step : σ → Next σ ο} {step' : τ → Next τ π} {s : σ} {t : τ}

/-- Related states stay related when the first machine takes a step and the second one some. When
the first machine halts in one of the ways that matter, the second one halts likewise. -/
def Simulates (step : σ → Next σ ο) (step' : τ → Next τ π) (R : σ → τ → Prop) (matters : ο → Prop)
    (O : ο → π → Prop) : Prop :=
  ∀ s t, R s t → match step s with
    | .go s' => ∃ t', Advances step' t t' ∧ R s' t'
    | .halt o => matters o → ∃ o', Ends step' t o' ∧ O o o'

variable {R : σ → τ → Prop} {matters : ο → Prop} {O : ο → π → Prop}

theorem Simulates.runFor (h : Simulates step step' R matters O) (hR : R s t) (n : Nat) :
    match runFor step n s with
    | .go s' => ∃ t', Reaches step' t t' ∧ R s' t' ∧ Lasts step' n t
    | .halt o => matters o → ∃ o', Ends step' t o' ∧ O o o' := by
  induction n generalizing s t with
  | zero => exact ⟨t, .refl t, hR, .zero t⟩
  | succ n ih =>
    have hstep := h s t hR
    cases hs : step s with
    | halt o =>
      rw [hs] at hstep
      unfold Imp32.runFor
      rw [hs]
      exact hstep
    | go s' =>
      rw [hs] at hstep
      obtain ⟨t', hadvance, hR'⟩ := hstep
      rw [runFor_succ hs]
      have hrun := ih hR'
      cases hrest : Imp32.runFor step n s' with
      | halt o =>
        rw [hrest] at hrun
        intro ho
        obtain ⟨o', hends, hO⟩ := hrun ho
        exact ⟨o', hadvance.reaches.ends hends, hO⟩
      | go s'' =>
        rw [hrest] at hrun
        obtain ⟨t'', hreach, hR'', hlasts⟩ := hrun
        exact ⟨t'', hadvance.reaches.trans hreach, hR'', hadvance.lasts hlasts⟩

theorem Simulates.ends {o : ο} (h : Simulates step step' R matters O) (hR : R s t)
    (hends : Ends step s o) (ho : matters o) : ∃ o', Ends step' t o' ∧ O o o' := by
  obtain ⟨n, hn⟩ := hends
  have hrun := h.runFor hR n
  rw [hn] at hrun
  exact hrun ho

theorem Simulates.forever (h : Simulates step step' R matters O) (hR : R s t)
    (hforever : Forever step s) : Forever step' t := by
  intro n
  obtain ⟨s', hs'⟩ := hforever n
  have hrun := h.runFor hR n
  rw [hs'] at hrun
  obtain ⟨t', -, -, hlasts⟩ := hrun
  exact hlasts

end Simulation

/-! ## Places in a list -/

/-- The segment stands in the list at this position. -/
def Placed {α : Type} (whole : List α) (pos : Nat) (seg : List α) : Prop :=
  seg <+: whole.drop pos

namespace Placed

variable {α : Type} {whole a b : List α} {x : α} {pos i : Nat}

theorem self (whole : List α) : Placed whole 0 whole := List.prefix_rfl

theorem left (h : Placed whole pos (a ++ b)) : Placed whole pos a :=
  (List.prefix_append a b).trans h

theorem right (h : Placed whole pos (a ++ b)) : Placed whole (pos + a.length) b := by
  obtain ⟨post, hpost⟩ := h
  refine ⟨post, ?_⟩
  rw [← List.drop_drop, ← hpost, List.append_assoc, List.drop_left]

theorem tail (h : Placed whole pos (x :: a)) : Placed whole (pos + 1) a :=
  right (a := [x]) h

theorem trans (h : Placed whole pos a) (h' : Placed a i b) : Placed whole (pos + i) b := by
  obtain ⟨post, hpost⟩ := h
  obtain ⟨post', hpost'⟩ := h'
  by_cases hi : i ≤ a.length
  · refine ⟨post' ++ post, ?_⟩
    rw [← List.drop_drop, ← hpost, List.drop_append_of_le_length hi, ← hpost', List.append_assoc]
  · rw [List.drop_eq_nil_of_le (by omega)] at hpost'
    rw [(List.append_eq_nil_iff.1 hpost').1]
    exact List.nil_prefix

theorem getElem? (h : Placed whole pos a) (hi : a[i]? = some x) : whole[pos + i]? = some x := by
  obtain ⟨post, hpost⟩ := h
  rw [← List.getElem?_drop, ← hpost, List.getElem?_append_left, hi]
  exact (List.getElem?_eq_some_iff.1 hi).1

theorem head (h : Placed whole pos (x :: a)) : whole[pos]? = some x :=
  h.getElem? (i := 0) rfl

end Placed

/-! ## Listings -/

namespace Assembly

variable {Instr σ ο : Type}

/-- What an instruction does to the state of a machine. -/
inductive Effect (σ ο : Type) where
  /-- Go on with the next line. -/
  | next (s : σ)
  | jump (target : Label) (s : σ)
  | stop (o : ο)
  /-- The instruction has no meaning here. -/
  | stuck

/-- How the execution of a listing halts. -/
inductive Outcome (ο : Type) where
  /-- The instruction on a line stops the machine. -/
  | stopped (line : Nat) (o : ο)
  | stuck

/-- A line of a listing, which is next, and the state of the machine. -/
structure Point (σ : Type) where
  line : Nat
  state : σ

def Line.label? : Line Instr → Option Label
  | label l => some l
  | _ => none

def resolve (lines : List (Line Instr)) (l : Label) : Option Nat :=
  lines.findIdx? fun line => line.label?.any fun l' => l'.text = l.text

/-- Where an effect of the instruction on a line leads. -/
def Effect.follow (lines : List (Line Instr)) (line : Nat) :
    Effect σ ο → Next (Point σ) (Outcome ο)
  | next s => .go ⟨line + 1, s⟩
  | jump target s =>
    match resolve lines target with
    | some k => .go ⟨k, s⟩
    | none => .halt .stuck
  | stop o => .halt (.stopped line o)
  | stuck => .halt .stuck

/-- Execute the next line. -/
def stepLine (exec : Instr → σ → Effect σ ο) (lines : List (Line Instr)) (p : Point σ) :
    Next (Point σ) (Outcome ο) :=
  match lines[p.line]? with
  | none => .halt .stuck
  | some (.instr i) => (exec i p.state).follow lines p.line
  | some _ => .go ⟨p.line + 1, p.state⟩

/-- No two labels are written alike. -/
def Distinct (lines : List (Line Instr)) : Prop :=
  ((lines.filterMap Line.label?).map Label.text).Nodup

/-- A label stands for the line that sets it. -/
theorem resolve_of_distinct {lines : List (Line Instr)} {l : Label} {k : Nat}
    (hd : Distinct lines) (hk : lines[k]? = some (.label l)) : resolve lines l = some k := by
  induction lines generalizing k with
  | nil => simp at hk
  | cons line lines ih =>
    unfold resolve
    cases k with
    | zero =>
      rw [List.getElem?_cons_zero, Option.some.injEq] at hk
      subst hk
      rw [List.findIdx?_cons, if_pos (by simp [Line.label?])]
    | succ k =>
      rw [List.getElem?_cons_succ] at hk
      have hmem : l ∈ lines.filterMap Line.label? :=
        List.mem_filterMap.2 ⟨_, List.mem_of_getElem? hk, rfl⟩
      have htail : Distinct lines := by
        unfold Distinct at hd ⊢
        rw [List.filterMap_cons] at hd
        cases hlabel : line.label? with
        | none => rwa [hlabel] at hd
        | some l' =>
          rw [hlabel] at hd
          exact (List.nodup_cons.1 hd).2
      have hne : line.label?.any (fun l' => l'.text = l.text) = false := by
        cases hlabel : line.label? with
        | none => rfl
        | some l' =>
          unfold Distinct at hd
          rw [List.filterMap_cons, hlabel] at hd
          refine decide_eq_false fun htext => (List.nodup_cons.1 hd).1 ?_
          exact List.mem_map.2 ⟨l, hmem, htext.symm⟩
      have hrest := ih htail hk
      unfold resolve at hrest
      rw [List.findIdx?_cons, hne, hrest]
      rfl

section Steps

variable {exec : Instr → σ → Effect σ ο} {lines : List (Line Instr)} {line : Nat} {s s' : σ}
  {i : Instr}

theorem step_instr (hi : lines[line]? = some (.instr i)) :
    stepLine exec lines ⟨line, s⟩ = (exec i s).follow lines line := by
  unfold stepLine
  simp only [hi]

theorem step_next (hi : lines[line]? = some (.instr i)) (h : exec i s = .next s') :
    stepLine exec lines ⟨line, s⟩ = .go ⟨line + 1, s'⟩ := by
  rw [step_instr hi, h]
  rfl

theorem step_jump {target : Label} {k : Nat} (hi : lines[line]? = some (.instr i))
    (h : exec i s = .jump target s') (hk : resolve lines target = some k) :
    stepLine exec lines ⟨line, s⟩ = .go ⟨k, s'⟩ := by
  rw [step_instr hi, h]
  simp only [Effect.follow, hk]

theorem step_stop {o : ο} (hi : lines[line]? = some (.instr i)) (h : exec i s = .stop o) :
    stepLine exec lines ⟨line, s⟩ = .halt (.stopped line o) := by
  rw [step_instr hi, h]
  rfl

theorem step_stuck (hi : lines[line]? = some (.instr i)) (h : exec i s = .stuck) :
    stepLine exec lines ⟨line, s⟩ = .halt .stuck := by
  rw [step_instr hi, h]
  rfl

/-- A line without an instruction does nothing. -/
theorem step_silent {l : Line Instr} (hl : lines[line]? = some l) (h : ∀ i, l ≠ .instr i) :
    stepLine exec lines ⟨line, s⟩ = .go ⟨line + 1, s⟩ := by
  unfold stepLine
  rw [hl]
  cases l with
  | instr i => exact absurd rfl (h i)
  | _ => rfl

theorem step_label {l : Label} (hl : lines[line]? = some (.label l)) :
    stepLine exec lines ⟨line, s⟩ = .go ⟨line + 1, s⟩ := step_silent hl nofun

theorem step_directive {text : String} (hl : lines[line]? = some (.directive text)) :
    stepLine exec lines ⟨line, s⟩ = .go ⟨line + 1, s⟩ := step_silent hl nofun

theorem step_comment {sign text : String} (hl : lines[line]? = some (.comment sign text)) :
    stepLine exec lines ⟨line, s⟩ = .go ⟨line + 1, s⟩ := step_silent hl nofun

/-- What a step that does not halt may do. -/
theorem step_cases {q : Point σ} (h : stepLine exec lines ⟨line, s⟩ = .go q) :
    ∃ x, lines[line]? = some x ∧
      (((∀ i, x ≠ .instr i) ∧ q = ⟨line + 1, s⟩) ∨
        ∃ i, x = .instr i ∧ ((∃ s', exec i s = .next s' ∧ q = ⟨line + 1, s'⟩) ∨
          ∃ l s' k, exec i s = .jump l s' ∧ resolve lines l = some k ∧ q = ⟨k, s'⟩)) := by
  cases hx : lines[line]? with
  | none =>
    unfold stepLine at h
    rw [hx] at h
    cases h
  | some x =>
    refine ⟨x, rfl, ?_⟩
    cases x with
    | instr i =>
      rw [step_instr hx] at h
      refine .inr ⟨i, rfl, ?_⟩
      cases hi : exec i s with
      | next s' =>
        rw [hi] at h
        cases h
        exact .inl ⟨s', rfl, rfl⟩
      | jump l s' =>
        rw [hi] at h
        unfold Effect.follow at h
        cases hk : resolve lines l with
        | none =>
          simp only [hk] at h
          cases h
        | some k =>
          simp only [hk] at h
          cases h
          exact .inr ⟨l, s', k, rfl, hk, rfl⟩
      | _ =>
        rw [hi] at h
        cases h
    | _ =>
      rw [step_silent hx nofun] at h
      cases h
      exact .inl ⟨nofun, rfl⟩

/-- Execute instructions that all go on with the next line. -/
def runStraight (exec : Instr → σ → Effect σ ο) : List Instr → σ → Option σ
  | [], s => some s
  | i :: rest, s =>
    match exec i s with
    | .next s' => runStraight exec rest s'
    | _ => none

theorem runStraight_cons {is : List Instr} (h : exec i s = .next s') :
    runStraight exec (i :: is) s = runStraight exec is s' := by
  show (match exec i s with
    | .next s' => runStraight exec is s'
    | _ => none) = _
  rw [h]

theorem runStraight_append {a b : List Instr} (h : runStraight exec a s = some s') :
    runStraight exec (a ++ b) s = runStraight exec b s' := by
  induction a generalizing s with
  | nil =>
    cases h
    rfl
  | cons i a ih =>
    cases hi : exec i s with
    | next t =>
      rw [runStraight_cons hi] at h
      rw [List.cons_append, runStraight_cons hi]
      exact ih h
    | _ => simp [runStraight, hi] at h

/-- After as many steps as there are instructions, all have been executed; before that, the next one
is on its line. -/
theorem runFor_straight {is : List Instr} (hp : Placed lines line (is.map .instr))
    (h : runStraight exec is s = some s') {j : Nat} (hj : j ≤ is.length) : ∃ s'',
      runFor (stepLine exec lines) j ⟨line, s⟩ = .go ⟨line + j, s''⟩ ∧ (j = is.length → s'' = s') := by
  induction is generalizing line s j with
  | nil =>
    cases h
    cases Nat.le_zero.1 hj
    exact ⟨_, rfl, fun _ => rfl⟩
  | cons i is ih =>
    cases j with
    | zero => exact ⟨s, rfl, fun h => absurd h (Nat.succ_ne_zero _).symm⟩
    | succ j =>
      cases hi : exec i s with
      | next t =>
        rw [runStraight_cons hi] at h
        obtain ⟨s'', hrun, hlast⟩ := ih hp.tail h (Nat.le_of_succ_le_succ hj)
        refine ⟨s'', ?_, fun hj => hlast (Nat.succ.inj hj)⟩
        rw [runFor_succ (step_next hp.head hi), hrun, Nat.add_assoc, Nat.add_comm 1]
      | _ => simp [runStraight, hi] at h

theorem reaches_straight {is : List Instr} (hp : Placed lines line (is.map .instr))
    (h : runStraight exec is s = some s') :
    Reaches (stepLine exec lines) ⟨line, s⟩ ⟨line + is.length, s'⟩ := by
  obtain ⟨s'', hrun, hlast⟩ := runFor_straight hp h (Nat.le_refl _)
  cases hlast rfl
  exact ⟨_, hrun⟩

/-- At least one instruction is at least one step. -/
theorem advances_straight {is : List Instr} (hp : Placed lines line ((i :: is).map .instr))
    (h : runStraight exec (i :: is) s = some s') :
    Advances (stepLine exec lines) ⟨line, s⟩ ⟨line + (is.length + 1), s'⟩ := by
  cases hi : exec i s with
  | next t =>
    rw [runStraight_cons hi] at h
    have hrest := reaches_straight hp.tail h
    rw [Nat.add_assoc, Nat.add_comm 1] at hrest
    exact (Advances.of_step (step_next hp.head hi)).trans hrest
  | _ => simp [runStraight, hi] at h

/-- What an instruction does on a machine that has only some of them. -/
def execIf (fits : Instr → Bool) (exec : Instr → σ → Effect σ ο) (i : Instr) (s : σ) :
    Effect σ ο :=
  if fits i then exec i s else .stuck

theorem execIf_of_fits {fits : Instr → Bool} (h : fits i = true) : execIf fits exec i s = exec i s :=
  if_pos h

/-- A machine that has all instructions of the lines executes them all. -/
theorem stepLine_execIf {fits : Instr → Bool} (h : ∀ i, .instr i ∈ lines → fits i = true) :
    stepLine (execIf fits exec) lines = stepLine exec lines := by
  funext p
  unfold stepLine
  cases hline : lines[p.line]? with
  | none => rfl
  | some line =>
    cases line with
    | instr i =>
      dsimp only
      rw [execIf_of_fits (h i (List.mem_of_getElem? hline))]
    | _ => rfl

/-- The machine stops in this way. -/
def Halts (exec : Instr → σ → Effect σ ο) (lines : List (Line Instr)) (start : Point σ) (o : ο) :
    Prop :=
  ∃ line, Ends (stepLine exec lines) start (.stopped line o)

theorem Halts.unique {start : Point σ} {o o' : ο} (h : Halts exec lines start o)
    (h' : Halts exec lines start o') : o = o' := by
  obtain ⟨line, hends⟩ := h
  obtain ⟨line', hends'⟩ := h'
  cases hends.unique hends'
  rfl

end Steps

end Assembly

end Imp32
