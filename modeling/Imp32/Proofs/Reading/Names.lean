import Imp32.Proofs.Reading.Placed

/-!
# Where the names of a program stand

Every variable of a program that was read has the span of a token that spells its name
(`ofTokens_names`), since what is read stands at its tokens.
-/

namespace Imp32

/-! ## Parts of parts -/

/-- With an expression, the list has all expressions inside it. -/
def HasParts (es : List Expr) : Prop :=
  ∀ e ∈ es, e.parts ⊆ es

theorem hasParts_nil : HasParts [] :=
  fun _ => nofun

theorem HasParts.append {es fs : List Expr} (he : HasParts es) (hf : HasParts fs) :
    HasParts (es ++ fs) := by
  intro e hmem
  obtain hmem | hmem := List.mem_append.1 hmem
  · exact List.subset_append_of_subset_left fs (he e hmem)
  · exact List.subset_append_of_subset_right es (hf e hmem)

theorem HasParts.parts {e : Expr} {es : List Expr} (h : HasParts es) (he : e.parts = e :: es) :
    HasParts e.parts := by
  intro a ha
  rw [he] at ha
  obtain rfl | ha := List.mem_cons.1 ha
  · exact List.Subset.refl _
  · rw [he]
    exact List.subset_cons_of_subset e (h a ha)

theorem Expr.hasParts (e : Expr) : HasParts e.parts := by
  induction e with
  | value n span => exact hasParts_nil.parts rfl
  | var name span => exact hasParts_nil.parts rfl
  | neg a span ih => exact ih.parts rfl
  | binary a op b span iha ihb => exact (iha.append ihb).parts rfl

theorem hasParts_flatMap (es : List Expr) : HasParts (es.flatMap Expr.parts) := by
  intro e hmem
  obtain ⟨a, ha, hpart⟩ := List.mem_flatMap.1 hmem
  exact fun b hb => List.mem_flatMap.2 ⟨a, ha, a.hasParts e hpart hb⟩

theorem Program.hasParts (p : Program) : HasParts p.parts :=
  p.parts_eq ▸ hasParts_flatMap p.expressions

/-! ## Names -/

/-- Every variable among the expressions stands where one of the tokens spells its name. -/
def NamesIn (ts : List Token) (es : List Expr) : Prop :=
  ∀ name span, Expr.var name span ∈ es → ⟨.ident name, span⟩ ∈ ts

section NamesIn

variable {ts : List Token} {es fs : List Expr}

theorem namesIn_nil (ts : List Token) : NamesIn ts [] :=
  fun _ _ => nofun

theorem NamesIn.append (he : NamesIn ts es) (hf : NamesIn ts fs) : NamesIn ts (es ++ fs) :=
  fun name span h => (List.mem_append.1 h).elim (he name span) (hf name span)

theorem NamesIn.cons {e : Expr} (he : ∀ name span, e ≠ .var name span) (h : NamesIn ts es) :
    NamesIn ts (e :: es) := by
  intro name span hmem
  obtain rfl | hmem := List.mem_cons.1 hmem
  · exact absurd rfl (he name span)
  · exact h name span hmem

theorem NamesIn.mono {us : List Token} (h : NamesIn ts es) (hus : ts ⊆ us) : NamesIn us es :=
  fun name span hmem => hus (h name span hmem)

end NamesIn

namespace Placed

theorem Expression.names {ts : List Token} {e : Expr} (h : Expression ts e) :
    NamesIn ts e.parts := by
  induction h with
  | value n span => exact (namesIn_nil _).cons (by simp)
  | var name span =>
    intro name' span' hmem
    obtain ⟨rfl, rfl⟩ := Expr.var.inj (List.mem_singleton.1 hmem)
    exact List.mem_cons_self
  | neg span _ ih => exact (ih.mono (List.subset_cons_self _ _)).cons (by simp)
  | binary op span _ _ iha ihb =>
    exact ((iha.mono (by simp)).append (ihb.mono (by simp))).cons (by simp)
  | paren o c _ ih => exact ih.mono (by simp)

theorem Cut.names {ts : List Token} {es : List Expr} (h : Cut ts es) :
    NamesIn ts (es.flatMap Expr.parts) := by
  intro name span hmem
  obtain ⟨e, he, hpart⟩ := List.mem_flatMap.1 hmem
  obtain ⟨us, hus, hwhole⟩ := h.mem he
  exact hus.subset (hwhole.placed.names name span hpart)

theorem Statements.names {ts : List Token} {p : Program} (h : Statements ts p) :
    NamesIn ts p.parts :=
  p.parts_eq ▸ h.cut.names

end Placed

/-- The names of a program that is read stand where the tokens spell them. -/
theorem ofTokens_names {ts : List Token} {limit : Int} {p : Program}
    (h : Program.ofTokens ts limit = .ok p) : NamesIn ts p.parts :=
  (ofTokens_placed h).names

end Imp32
