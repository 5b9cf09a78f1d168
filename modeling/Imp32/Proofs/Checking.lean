import Imp32.Program.Check
import Imp32.Proofs.Actions
import Imp32.Proofs.SameTree
import Mathlib.Logic.Basic

/-!
# What the checker finds

What the check of a program says does not depend on the spans of the program
(`Program.check_congr`): only the places change. Which variables a program assigns is said by
`Assigns`, without the check.
-/

namespace Imp32

/-! ## Assignments -/

/-- One of the expressions assigns to the variable that stands at the place. -/
def Assigns (es : List Expr) (name : String) (place : Span) : Prop :=
  ∃ value span, Expr.binary (.var name place) .assign value span ∈ es

section Assigns

variable {es fs : List Expr} {name : String} {place : Span}

theorem not_assigns_nil : ¬Assigns [] name place := by
  rintro ⟨value, span, h⟩
  cases h

theorem assigns_append :
    Assigns (es ++ fs) name place ↔ Assigns es name place ∨ Assigns fs name place := by
  simp only [Assigns, List.mem_append, exists_or]

theorem assigns_flatMap {exprs : List Expr} {f : Expr → List Expr} :
    Assigns (exprs.flatMap f) name place ↔ ∃ e ∈ exprs, Assigns (f e) name place := by
  constructor
  · rintro ⟨value, span, hmem⟩
    obtain ⟨e, he, hmem⟩ := List.mem_flatMap.1 hmem
    exact ⟨e, he, value, span, hmem⟩
  · rintro ⟨e, he, value, span, hmem⟩
    exact ⟨value, span, List.mem_flatMap.2 ⟨e, he, hmem⟩⟩

/-- Another expression than an assignment adds nothing. -/
theorem assigns_cons {e : Expr} (h : ∀ a value span, e ≠ .binary a .assign value span) :
    Assigns (e :: es) name place ↔ Assigns es name place := by
  unfold Assigns
  constructor
  · rintro ⟨value, span, hmem⟩
    obtain rfl | hmem := List.mem_cons.1 hmem
    · exact absurd rfl (h _ _ _)
    · exact ⟨value, span, hmem⟩
  · rintro ⟨value, span, hmem⟩
    exact ⟨value, span, List.mem_cons_of_mem _ hmem⟩

/-- An assignment adds its target. -/
theorem assigns_cons_assign {x : String} {target span : Span} {value : Expr} :
    Assigns (.binary (.var x target) .assign value span :: es) name place ↔
      (x = name ∧ target = place) ∨ Assigns es name place := by
  unfold Assigns
  constructor
  · rintro ⟨value', span', hmem⟩
    obtain heq | hmem := List.mem_cons.1 hmem
    · cases heq
      exact .inl ⟨rfl, rfl⟩
    · exact .inr ⟨value', span', hmem⟩
  · rintro (⟨rfl, rfl⟩ | ⟨value', span', hmem⟩)
    · exact ⟨value, span, List.mem_cons_self⟩
    · exact ⟨value', span', List.mem_cons_of_mem _ hmem⟩

end Assigns

/-! ## Spans -/

namespace Bindings

variable {α : Type}

theorem has_iff {b : Bindings α} {name : String} : b.has name = true ↔ name ∈ b.keys := by
  unfold has keys
  induction b with
  | nil => simp
  | cons pair rest ih =>
    obtain ⟨key, a⟩ := pair
    rw [get?, List.map_cons, List.mem_cons, ← ih]
    by_cases h : key = name
    · simp [h]
    · simp [h, Ne.symm h]

theorem set_of_not_has {b : Bindings α} {name : String} (h : name ∉ b.keys) (a : α) :
    b.set name a = b ++ [(name, a)] := by
  unfold keys at h
  induction b with
  | nil => rfl
  | cons pair rest ih =>
    obtain ⟨key, old⟩ := pair
    obtain ⟨hkey, hrest⟩ := not_or.1 (mt List.mem_cons.2 h)
    rw [set, if_neg (Ne.symm hkey), ih hrest, List.cons_append]

/-- A name that is new is the last one. -/
theorem setNew_eq (b : Bindings α) (name : String) (a : α) :
    b.setNew name a = if name ∈ b.keys then b else b ++ [(name, a)] := by
  unfold setNew
  by_cases h : name ∈ b.keys
  · rw [if_pos (has_iff.2 h), if_pos h]
  · rw [if_neg (mt has_iff.1 h), if_neg h, set_of_not_has h]

theorem keys_setNew (b : Bindings α) (name : String) (a : α) :
    (b.setNew name a).keys = if name ∈ b.keys then b.keys else b.keys ++ [name] := by
  rw [setNew_eq]
  split
  · rfl
  · exact List.map_append

end Bindings

/-- What a diagnostic says, apart from its places. -/
def Diagnostic.said (d : Diagnostic) : Severity × String × String :=
  (d.severity, d.code, d.message)

/-- The findings are the same but for the places. -/
structure Findings.Agree (f g : Findings) : Prop where
  targets : f.targets.keys = g.targets.keys
  reads : f.reads.keys = g.reads.keys
  diagnostics : f.diagnostics.map Diagnostic.said = g.diagnostics.map Diagnostic.said

theorem Findings.Agree.finish {f g : Findings} (h : f.Agree g) : f.finish.Agree g.finish where
  targets := h.targets
  reads := h.reads
  diagnostics := by
    have hmissing : ∀ f : Findings, ((f.reads.filter fun pair => !f.targets.has pair.1).map
        fun pair => (Check.neverAssigned pair.1 pair.2).said) =
          (f.reads.keys.filter fun name => decide (name ∉ f.targets.keys)).map
            fun name => (Check.neverAssigned name .none).said := by
      intro f
      unfold Bindings.keys
      rw [List.filter_map, List.map_map]
      refine congrArg₂ _ rfl (List.filter_congr fun pair _ => ?_)
      rw [Function.comp_apply, Bool.eq_iff_iff, Bool.not_eq_true', ← Bool.not_eq_true,
        Bindings.has_iff, decide_eq_true_iff]
      rfl
    unfold Findings.finish
    simp only [List.map_append, List.map_map, Function.comp_def]
    rw [h.diagnostics, hmissing f, hmissing g, h.reads, h.targets]

namespace Check

/-- From findings that are the same but for the places, the checks come to such findings. -/
def Alike (check check' : Check Unit) : Prop :=
  ∀ f g f', f.Agree g → check f = .ok () f' → ∃ g', check' g = .ok () g' ∧ f'.Agree g'

theorem Alike.bind {check check' : Check Unit} {next next' : Unit → Check Unit}
    (h : Alike check check') (hnext : Alike (next ()) (next' ())) :
    Alike (check >>= next) (check' >>= next') := by
  intro f g f' hfg hf
  obtain ⟨_, f₁, hfirst, hsecond⟩ := bind_eq_ok.1 hf
  obtain ⟨g₁, hg₁, hagree⟩ := h _ _ _ hfg hfirst
  obtain ⟨g', hg', hagree'⟩ := hnext _ _ _ hagree hsecond
  exact ⟨g', bind_eq_ok.2 ⟨(), g₁, hg₁, hg'⟩, hagree'⟩

theorem alike_nothing : Alike (pure ()) (pure ()) := by
  intro f g f' hfg hf
  cases hf
  exact ⟨g, rfl, hfg⟩

theorem alike_read (name : String) (span span' : Span) :
    Alike (read name span) (read name span') := by
  intro f g f' hfg hf
  cases hf
  refine ⟨_, rfl, hfg.targets, ?_, hfg.diagnostics⟩
  show (f.reads.setNew name span).keys = (g.reads.setNew name span').keys
  rw [Bindings.keys_setNew, Bindings.keys_setNew, hfg.reads]

theorem alike_assigned (name : String) (span span' : Span) :
    Alike (assigned name span) (assigned name span') := by
  intro f g f' hfg hf
  cases hf
  refine ⟨_, rfl, ?_, hfg.reads, hfg.diagnostics⟩
  show (f.targets.setNew name span).keys = (g.targets.setNew name span').keys
  rw [Bindings.keys_setNew, Bindings.keys_setNew, hfg.targets]

theorem alike_warn {d d' : Diagnostic} (h : d.said = d'.said) : Alike (warn d) (warn d') := by
  intro f g f' hfg hf
  cases hf
  refine ⟨_, rfl, hfg.targets, hfg.reads, ?_⟩
  show (f.diagnostics ++ [d]).map _ = (g.diagnostics ++ [d']).map _
  rw [List.map_append, List.map_append, hfg.diagnostics, List.map_singleton, List.map_singleton, h]

end Check

theorem Expr.check_alike (e : Expr) : Check.Alike e.check e.bare.check := by
  induction e with
  | value n span => exact Check.alike_nothing
  | var name span => exact Check.alike_read name span .none
  | neg a span ih => exact ih
  | binary a op b span iha ihb =>
    by_cases hop : op = .assign
    · subst hop
      cases a with
      | var name place => exact ihb.bind (Check.alike_assigned name place .none)
      | _ =>
        refine ihb.bind fun f g f' _ hf => ?_
        cases hf
    · have hcheck : ∀ a b span, (Expr.binary a op b span).check = (do a.check; b.check) := by
        intro a b span
        cases op <;> first | rfl | exact absurd rfl hop
      rw [bare, hcheck, hcheck]
      exact iha.bind ihb

theorem checkClause_alike (e : Option Expr) :
    Check.Alike (checkClause e) (checkClause (e.map Expr.bare)) := by
  cases e with
  | none => exact Check.alike_nothing
  | some e => exact e.check_alike

mutual

theorem Stmt.check_alike (s : Stmt) : Check.Alike s.check s.bare.check := by
  cases s with
  | expr e span => exact e.check_alike
  | block body span => exact checkAll_alike body
  | ifThen cond body span => exact cond.check_alike.bind (checkAll_alike body)
  | whileLoop cond body span => exact cond.check_alike.bind (checkAll_alike body)
  | forLoop init cond update body span =>
    have hrest : Check.Alike (do checkClause update; checkAll body)
        (do checkClause (update.map Expr.bare); checkAll (bareAll body)) :=
      (checkClause_alike update).bind (checkAll_alike body)
    refine (checkClause_alike init).bind ?_
    cases cond with
    | none =>
      have hwarn : Check.Alike (Check.warn (Check.noCondition span))
          (Check.warn (Check.noCondition .none)) := Check.alike_warn rfl
      exact hwarn.bind hrest
    | some cond => exact cond.check_alike.bind hrest

theorem checkAll_alike (p : Program) : Check.Alike (checkAll p) (checkAll (bareAll p)) := by
  cases p with
  | nil => exact Check.alike_nothing
  | cons s rest => exact (Stmt.check_alike s).bind (checkAll_alike rest)

end

theorem Findings.Agree.refl (f : Findings) : f.Agree f := ⟨rfl, rfl, rfl⟩

theorem Program.check_bare {p : Program} {f : Findings} (h : p.check = .ok f) :
    ∃ g, (bareAll p : Program).check = .ok g ∧ f.Agree g := by
  unfold Program.check at h ⊢
  cases hread : checkAll p ⟨[], [], []⟩ with
  | error e f₁ =>
    rw [hread] at h
    cases h
  | ok u f₁ =>
    rw [hread] at h
    cases h
    obtain ⟨g, hg, hagree⟩ := checkAll_alike p _ _ _ (.refl _) hread
    exact ⟨g.finish, by rw [hg], hagree.finish⟩

/-- Programs that are the same but for their spans are found the same but for the places. -/
theorem Program.check_congr {p q : Program} (hsame : sameTrees p q = true) {f g : Findings}
    (hf : p.check = .ok f) (hg : q.check = .ok g) : f.Agree g := by
  obtain ⟨f', hf', hfirst⟩ := Program.check_bare hf
  obtain ⟨g', hg', hsecond⟩ := Program.check_bare hg
  rw [(sameTrees_iff p q).1 hsame, hg'] at hf'
  cases hf'
  exact ⟨hfirst.targets.trans hsecond.targets.symm, hfirst.reads.trans hsecond.reads.symm,
    hfirst.diagnostics.trans hsecond.diagnostics.symm⟩

end Imp32
