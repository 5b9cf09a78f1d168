import Imp32.Proofs.Checking
import Imp32.Proofs.Nodes

/-!
# What a check comes to

The check of a program that assigns to variables only is a fold over the nodes of the program: it
notes the reads and the assignments in their order, and it warns at each `for` without a condition
(`Program.check_eq`). So it notes a target for each variable that the program assigns, which is the
target of such an assignment, and none for the others (`Program.check_targets`).
-/

namespace Imp32

namespace Bindings

variable {α : Type}

/-- Bind names in order, each to the first thing that comes with it. -/
def setNewAll (b : Bindings α) (pairs : List (String × α)) : Bindings α :=
  pairs.foldl (fun b pair => b.setNew pair.1 pair.2) b

theorem setNewAll_append (b : Bindings α) (pairs pairs' : List (String × α)) :
    b.setNewAll (pairs ++ pairs') = (b.setNewAll pairs).setNewAll pairs' :=
  List.foldl_append

/-- A name is bound to the first thing that comes with it. -/
theorem get?_setNewAll (b : Bindings α) (pairs : List (String × α)) (name : String) :
    (b.setNewAll pairs).get? name =
      (b.get? name).or ((pairs.find? fun pair => pair.1 = name).map Prod.snd) := by
  induction pairs generalizing b with
  | nil => exact (Option.or_none).symm
  | cons pair rest ih =>
    obtain ⟨key, a⟩ := pair
    show ((b.setNew key a).setNewAll rest).get? name = _
    rw [ih, get?_setNew]
    by_cases h : key = name
    · rw [if_pos h, List.find?_cons_of_pos (by simpa using h)]
      cases b.get? name <;> rfl
    · rw [if_neg h, List.find?_cons_of_neg (by simpa using h)]

/-- What is bound is one of the things that came with its name. -/
theorem mem_of_mem_setNewAll {b : Bindings α} {pairs : List (String × α)} {pair : String × α}
    (h : pair ∈ b.setNewAll pairs) : pair ∈ b ∨ pair ∈ pairs := by
  induction pairs generalizing b with
  | nil => exact .inl h
  | cons first rest ih =>
    obtain hold | hrest := ih (b := b.setNew first.1 first.2) h
    · rw [setNew_eq] at hold
      split at hold
      · exact .inl hold
      · exact (List.mem_append.1 hold).imp_right fun hnew =>
          List.mem_cons.2 (.inl (List.mem_singleton.1 hnew))
    · exact .inr (List.mem_cons_of_mem _ hrest)

theorem nodup_keys_setNewAll {b : Bindings α} (h : b.keys.Nodup) (pairs : List (String × α)) :
    (b.setNewAll pairs).keys.Nodup := by
  induction pairs generalizing b with
  | nil => exact h
  | cons pair rest ih =>
    refine ih (b := b.setNew pair.1 pair.2) ?_
    rw [keys_setNew]
    split
    next => exact h
    next hnew => exact List.nodup_append.2 ⟨h, List.pairwise_singleton _ _, fun x hx y hy hxy =>
        hnew (List.mem_singleton.1 hy ▸ hxy ▸ hx)⟩

/-- If no name is bound twice, a name has one pair or none. -/
theorem filter_eq_get? {b : Bindings α} (h : b.keys.Nodup) (name : String) :
    b.filter (fun pair => pair.1 = name) = (b.get? name).toList.map (name, ·) := by
  induction b with
  | nil => rfl
  | cons pair rest ih =>
    obtain ⟨key, a⟩ := pair
    obtain ⟨hkey, hrest⟩ := List.nodup_cons.1 h
    by_cases heq : key = name
    · subst heq
      have hnone : get? rest key = none :=
        Option.not_isSome_iff_eq_none.1 fun hsome => hkey (has_iff.1 hsome)
      rw [List.filter_cons_of_pos (by simp), ih hrest, hnone, get?, if_pos rfl]
      rfl
    · rw [List.filter_cons_of_neg (by simpa using heq), ih hrest, get?, if_neg heq]

end Bindings

/-- The place of a `for` without a condition. -/
def Stmt.unconditional? : Stmt → Option Span
  | .forLoop _ none _ _ span => some span
  | _ => none

theorem Stmt.span_of_unconditional {s : Stmt} {span : Span} (h : s.unconditional? = some span) :
    s.span = span := by
  unfold unconditional? at h
  split at h
  · exact Option.some.inj h
  · cases h

/-- The places of the loops without a condition, at any depth. -/
def Program.unconditional (p : Program) : List Span :=
  p.statements.filterMap Stmt.unconditional?

/-- The findings with these reads, assignments and warnings. -/
def Findings.noting (f : Findings) (reads targets : List (String × Span)) (loops : List Span) :
    Findings :=
  ⟨f.targets.setNewAll targets, f.reads.setNewAll reads,
    f.diagnostics ++ loops.map Check.noCondition⟩

namespace Check

/-- The check adds these reads, assignments and warnings, whatever was found before. -/
def Adds (check : Check Unit) (reads targets : List (String × Span)) (loops : List Span) : Prop :=
  ∀ f, check f = .ok () (f.noting reads targets loops)

section Adds

variable {check : Check Unit} {next : Unit → Check Unit} {reads reads' targets targets' :
  List (String × Span)} {loops loops' : List Span}

theorem Adds.bind (h : Adds check reads targets loops)
    (hnext : Adds (next ()) reads' targets' loops') :
    Adds (check >>= next) (reads ++ reads') (targets ++ targets') (loops ++ loops') := by
  intro f
  rw [bind_of_ok (h f), hnext]
  simp only [Findings.noting, Bindings.setNewAll_append, List.map_append, List.append_assoc]

theorem Adds.of_eq (h : Adds check reads targets loops) (hr : reads = reads')
    (ht : targets = targets') (hl : loops = loops') : Adds check reads' targets' loops' :=
  hr ▸ ht ▸ hl ▸ h

theorem adds_nothing : Adds (pure ()) [] [] [] := by
  intro f
  simp only [Findings.noting, List.map_nil, List.append_nil]
  rfl

theorem adds_read (name : String) (span : Span) : Adds (read name span) [(name, span)] [] [] := by
  intro f
  simp only [Findings.noting, List.map_nil, List.append_nil]
  rfl

theorem adds_assigned (name : String) (span : Span) :
    Adds (assigned name span) [] [(name, span)] [] := by
  intro f
  simp only [Findings.noting, List.map_nil, List.append_nil]
  rfl

theorem adds_warn (span : Span) : Adds (warn (noCondition span)) [] [] [span] := fun _ => rfl

end Adds

end Check

theorem Expr.check_adds {e : Expr} (h : e.WellFormed) : e.check.Adds e.reads e.targets [] := by
  induction e with
  | value n span => exact Check.adds_nothing
  | var name span => exact Check.adds_read name span
  | neg a span ih => exact ih h
  | binary a op b span iha ihb =>
    obtain ⟨htarget, ha, hb⟩ := h
    by_cases hop : op = .assign
    · subst hop
      obtain ⟨x, place, rfl⟩ := htarget rfl
      have hboth : Check.Adds (do b.check; Check.assigned x place) _ _ _ :=
        (ihb hb).bind (Check.adds_assigned x place)
      exact hboth.of_eq (List.append_nil _) rfl rfl
    · have hcheck : (Expr.binary a op b span).check = (do a.check; b.check) := by
        cases op <;> first | rfl | exact absurd rfl hop
      have hboth : Check.Adds (do a.check; b.check) _ _ _ := (iha ha).bind (ihb hb)
      rw [hcheck]
      exact hboth.of_eq (by rw [reads, if_neg hop]) (by rw [targets, if_neg hop]) rfl

theorem checkClause_adds {e : Option Expr} (h : ∀ a ∈ e, a.WellFormed) :
    (checkClause e).Adds (e.toList.flatMap Expr.reads) (e.toList.flatMap Expr.targets) [] := by
  cases e with
  | none => exact Check.adds_nothing
  | some a =>
    exact (a.check_adds (h a rfl)).of_eq (List.append_nil _).symm (List.append_nil _).symm rfl

mutual

theorem Stmt.check_adds {s : Stmt} (h : s.Each Expr.WellFormed) :
    s.check.Adds (s.expressions.flatMap Expr.reads) (s.expressions.flatMap Expr.targets)
      (s.statements.filterMap Stmt.unconditional?) := by
  cases s with
  | expr e span =>
    exact (e.check_adds h).of_eq (List.append_nil _).symm (List.append_nil _).symm rfl
  | block body span => exact checkAll_adds h
  | ifThen cond body span => exact (cond.check_adds h.1).bind (checkAll_adds h.2)
  | whileLoop cond body span => exact (cond.check_adds h.1).bind (checkAll_adds h.2)
  | forLoop init cond update body span =>
    obtain ⟨hinit, hcond, hupdate, hbody⟩ := h
    have hrest : Check.Adds (do checkClause update; checkAll body) _ _ _ :=
      (checkClause_adds hupdate).bind (checkAll_adds hbody)
    have hreads : ∀ es fs gs : List Expr, es.flatMap Expr.reads ++ (fs.flatMap Expr.reads ++
        (gs.flatMap Expr.reads ++ Program.reads body)) =
          (es ++ (fs ++ (gs ++ Program.expressions body))).flatMap Expr.reads := by
      simp [Program.reads]
    have htargets : ∀ es fs gs : List Expr, es.flatMap Expr.targets ++ (fs.flatMap Expr.targets ++
        (gs.flatMap Expr.targets ++ Program.targets body)) =
          (es ++ (fs ++ (gs ++ Program.expressions body))).flatMap Expr.targets := by
      simp [Program.targets]
    cases cond with
    | none =>
      have hloop : Check.Adds (do
          checkClause init
          Check.warn (Check.noCondition span)
          checkClause update
          checkAll body) _ _ _ := (checkClause_adds hinit).bind ((Check.adds_warn span).bind hrest)
      exact hloop.of_eq (hreads _ [] _) (htargets _ [] _) rfl
    | some cond =>
      have hloop : Check.Adds (do
          checkClause init
          checkClause (some cond)
          checkClause update
          checkAll body) _ _ _ :=
        (checkClause_adds hinit).bind ((checkClause_adds hcond).bind hrest)
      exact hloop.of_eq (hreads _ _ _) (htargets _ _ _) rfl

theorem checkAll_adds {p : Program} (h : p.Each Expr.WellFormed) :
    (checkAll p).Adds p.reads p.targets p.unconditional := by
  cases p with
  | nil => exact Check.adds_nothing
  | cons s rest =>
    have hboth : Check.Adds (do s.check; checkAll rest) _ _ _ :=
      (Stmt.check_adds h.1).bind (checkAll_adds h.2)
    exact hboth.of_eq List.flatMap_append.symm List.flatMap_append.symm List.filterMap_append.symm

end

/-- What the check of a program finds: the first place of each read and of each assignment, and a
warning for each loop without a condition and each variable that is read only. -/
theorem Program.check_eq {p : Program} (h : p.Each Expr.WellFormed) :
    p.check =
      .ok (Findings.noting ⟨[], [], []⟩ p.reads p.targets p.unconditional).finish := by
  unfold Program.check
  rw [checkAll_adds h]

theorem Program.check_ok {p : Program} (h : p.Proper) : ∃ f, p.check = .ok f :=
  ⟨_, check_eq (h.imp fun _ he => he.wellFormed)⟩

/-! ## Targets -/

theorem Expr.mem_targets {e : Expr} (h : e.WellFormed) {name : String} {place : Span} :
    (name, place) ∈ e.targets ↔ Assigns e.parts name place := by
  induction e with
  | value n span => simp [targets, parts, Assigns]
  | var x span => simp [targets, parts, Assigns]
  | neg a span ih => exact (ih h).trans (assigns_cons (by simp)).symm
  | binary a op b span iha ihb =>
    obtain ⟨htarget, ha, hb⟩ := h
    by_cases hop : op = .assign
    · subst hop
      obtain ⟨x, target, rfl⟩ := htarget rfl
      have hvar : ¬Assigns (Expr.var x target).parts name place :=
        mt (assigns_cons (by simp)).1 not_assigns_nil
      rw [parts, assigns_cons_assign, assigns_append, or_iff_right hvar, ← ihb hb, or_comm]
      simp [targets, Expr.target, eq_comm]
    · rw [parts, assigns_cons (by simp [hop]), assigns_append, ← iha ha, ← ihb hb, targets,
        if_neg hop, List.mem_append]

theorem Program.mem_targets {p : Program} (h : p.Each Expr.WellFormed) {name : String}
    {place : Span} : (name, place) ∈ p.targets ↔ Assigns p.parts name place := by
  rw [Program.parts_eq, assigns_flatMap, Program.targets, List.mem_flatMap]
  exact exists_congr fun e => and_congr_right fun he =>
    Expr.mem_targets ((Program.each_iff p).1 h e he)

/-- The target of a name is the first that is noted with it. -/
theorem Program.get?_targets {p : Program} {f : Findings} (h : p.Each Expr.WellFormed)
    (hf : p.check = .ok f) (name : String) :
    f.targets.get? name = (p.targets.find? fun pair => pair.1 = name).map Prod.snd := by
  obtain rfl := Except.ok.inj ((Program.check_eq h).symm.trans hf)
  exact (Bindings.get?_setNewAll [] p.targets name).trans Option.none_or

/-- A name has a target in the findings just if the program assigns it, and then the target is that
of an assignment. -/
theorem Program.check_targets {p : Program} {f : Findings} (h : p.Proper) (hf : p.check = .ok f) :
    (∀ {name place}, f.targets.get? name = some place → Assigns p.parts name place) ∧
      ∀ name, (f.targets.get? name).isSome ↔ ∃ place, Assigns p.parts name place := by
  have hformed := h.imp fun _ he => he.wellFormed
  have hget := Program.get?_targets hformed hf
  constructor
  · intro name place hplace
    obtain ⟨pair, hfound, rfl⟩ := Option.map_eq_some_iff.1 ((hget name).symm.trans hplace)
    obtain rfl : pair.1 = name := by simpa using List.find?_some hfound
    exact (Program.mem_targets hformed).1 (List.mem_of_find?_eq_some hfound)
  · intro name
    rw [hget, Option.isSome_map, List.find?_isSome]
    constructor
    · rintro ⟨pair, hpair, hname⟩
      obtain rfl := of_decide_eq_true hname
      exact ⟨pair.2, (Program.mem_targets hformed).1 hpair⟩
    · rintro ⟨place, hplace⟩
      exact ⟨(name, place), (Program.mem_targets hformed).2 hplace, decide_eq_true rfl⟩

end Imp32
