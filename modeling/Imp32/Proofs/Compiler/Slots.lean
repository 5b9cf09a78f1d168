import Imp32.Proofs.Compiler.Statements

/-!
# Slots

Collecting the names of a program finds each name once and none too few: the slots of a program
differ, and every expression of the program is over them (`Program.fits`).
-/

namespace Imp32

open Assembly

/-- More has been found, and nothing twice. -/
structure Grows (found found' : List String) : Prop where
  subset : found ⊆ found'
  nodup : found.Nodup → found'.Nodup

namespace Grows

theorem refl (found : List String) : Grows found found := ⟨List.Subset.refl found, id⟩

theorem trans {a b c : List String} (h : Grows a b) (h' : Grows b c) : Grows a c :=
  ⟨List.Subset.trans h.subset h'.subset, h'.nodup ∘ h.nodup⟩

theorem addNew (found : List String) (name : String) : Grows found (addNew found name) := by
  unfold Assembly.addNew
  by_cases h : found.contains name = true
  · rw [if_pos h]
    exact .refl found
  · rw [if_neg h]
    refine ⟨List.subset_append_left found [name], fun hnodup => ?_⟩
    refine List.nodup_append.2 ⟨hnodup, by simp, fun a ha b hb => ?_⟩
    rw [List.mem_singleton.1 hb]
    rintro rfl
    exact h (List.contains_iff_mem.2 ha)

end Grows

theorem mem_addNew {found : List String} {name name' : String} :
    name ∈ addNew found name' ↔ name ∈ found ∨ name = name' := by
  unfold addNew
  by_cases h : found.contains name' = true
  · rw [if_pos h]
    refine ⟨.inl, fun hmem => hmem.elim id ?_⟩
    rintro rfl
    exact List.contains_iff_mem.1 h
  · rw [if_neg h, List.mem_append, List.mem_singleton]

/-! ## What collecting finds -/

theorem Expr.collect_grows (e : Expr) (found : List String) : Grows found (e.collect found) := by
  induction e generalizing found with
  | value n span => exact .refl found
  | var name span => exact .addNew found name
  | neg a span ih => exact ih found
  | binary a op b span iha ihb => exact (iha found).trans (ihb _)

theorem Expr.over_of_collect {names : List String} (e : Expr) {found : List String}
    (h : e.collect found ⊆ names) : e.Over names := by
  induction e generalizing found with
  | value n span => trivial
  | var name span => exact h (mem_addNew.2 (.inr rfl))
  | neg a span ih => exact ih h
  | binary a op b span iha ihb =>
    exact ⟨iha (List.Subset.trans (b.collect_grows _).subset h), ihb h⟩

theorem collectClause_grows (e : Option Expr) (found : List String) :
    Grows found (collectClause found e) := by
  cases e with
  | none => exact .refl found
  | some a => exact a.collect_grows found

theorem over_of_collectClause {names found : List String} {e : Option Expr}
    (h : collectClause found e ⊆ names) : ∀ a ∈ e, a.Over names := by
  intro a ha
  cases ha
  exact a.over_of_collect h

mutual

theorem Stmt.collect_grows (s : Stmt) (found : List String) : Grows found (s.collect found) := by
  cases s with
  | expr e span => exact e.collect_grows found
  | block body span => exact collectAll_grows body found
  | ifThen cond body span => exact (cond.collect_grows found).trans (collectAll_grows body _)
  | whileLoop cond body span => exact (cond.collect_grows found).trans (collectAll_grows body _)
  | forLoop init cond update body span =>
    exact (((collectClause_grows init found).trans (collectClause_grows cond _)).trans
      (collectClause_grows update _)).trans (collectAll_grows body _)

theorem collectAll_grows (p : Program) (found : List String) :
    Grows found (collectAll found p) := by
  cases p with
  | nil => exact .refl found
  | cons s rest => exact (Stmt.collect_grows s found).trans (collectAll_grows rest _)

end

mutual

theorem Stmt.over_of_collect {names : List String} (s : Stmt) {found : List String}
    (h : s.collect found ⊆ names) : s.Each (Expr.Over names) := by
  cases s with
  | expr e span => exact e.over_of_collect h
  | block body span => exact over_of_collectAll body h
  | ifThen cond body span =>
    exact ⟨cond.over_of_collect (List.Subset.trans (collectAll_grows body _).subset h),
      over_of_collectAll body h⟩
  | whileLoop cond body span =>
    exact ⟨cond.over_of_collect (List.Subset.trans (collectAll_grows body _).subset h),
      over_of_collectAll body h⟩
  | forLoop init cond update body span =>
    have hupdate := List.Subset.trans (collectAll_grows body _).subset h
    have hcond := List.Subset.trans (collectClause_grows update _).subset hupdate
    have hinit := List.Subset.trans (collectClause_grows cond _).subset hcond
    exact ⟨over_of_collectClause hinit, over_of_collectClause hcond,
      over_of_collectClause hupdate, over_of_collectAll body h⟩

theorem over_of_collectAll {names : List String} (p : Program) {found : List String}
    (h : collectAll found p ⊆ names) : p.Each (Expr.Over names) := by
  cases p with
  | nil => trivial
  | cons s rest =>
    exact ⟨Stmt.over_of_collect s (List.Subset.trans (collectAll_grows rest _).subset h),
      over_of_collectAll rest h⟩

end

/-! ## The slots of a program -/

namespace Program

theorem nodup_slots (p : Program) : p.slots.Nodup :=
  (collectAll_grows p []).nodup .nil

/-- Every expression of a proper program fits its slots. -/
theorem fits {p : Program} (h : p.Proper) : p.Each (Expr.Fits p.slots) :=
  Program.Each.and (fun _ => And.intro) p h (over_of_collectAll p (List.Subset.refl _))

end Program

end Imp32
