import Imp32.Proofs.Editing.Names
import Imp32.Proofs.Spans.Trees

/-!
# The target that is noted

For each variable that a program assigns, the check notes the target of one assignment. It is not
always the first one in the text: a right side comes before its target, so that in `x = x = 1` the
second target is noted. What is noted is the first target in the text among the assignments whose
value holds no assignment to the same name (`AssignsInnermost`), and this is the first one of all
just if the first one is among these (`Program.notes_innermost`).

The check notes targets in the order of `Expr.targets`. That the first of them has the least place
is shown along the tokens at which the expressions stand (`Placed.Expression.firsts`,
`Placed.Cut.firsts`): two assignments stand one behind the other or one in the value of the other.
-/

namespace Imp32

/-- One of the expressions assigns to the variable that stands at the place, and no expression in
the value assigns to the same name. -/
def AssignsInnermost (es : List Expr) (name : String) (place : Span) : Prop :=
  ∃ value span, Expr.binary (.var name place) .assign value span ∈ es ∧
    ∀ inner, ¬Assigns value.parts name inner

/-- The place has the property, and it starts first of those that have it. -/
structure Earliest (P : Span → Prop) (place : Span) : Prop where
  holds : P place
  first : ∀ other, P other → place.start ≤ other.start

/-! ## Innermost assignments -/

section Innermost

variable {es fs : List Expr} {name : String} {place : Span}

theorem AssignsInnermost.assigns (h : AssignsInnermost es name place) : Assigns es name place := by
  obtain ⟨value, span, hmem, -⟩ := h
  exact ⟨value, span, hmem⟩

theorem AssignsInnermost.mono (h : AssignsInnermost es name place) (hes : es ⊆ fs) :
    AssignsInnermost fs name place := by
  obtain ⟨value, span, hmem, hinner⟩ := h
  exact ⟨value, span, hes hmem, hinner⟩

theorem assignsInnermost_append :
    AssignsInnermost (es ++ fs) name place ↔
      AssignsInnermost es name place ∨ AssignsInnermost fs name place := by
  simp only [AssignsInnermost, List.mem_append, or_and_right, exists_or]

/-- The outermost assignment of an expression, or one of the value. -/
theorem AssignsInnermost.of_cons {e : Expr} (h : AssignsInnermost (e :: es) name place) :
    (∃ value span, e = .binary (.var name place) .assign value span ∧
      ∀ inner, ¬Assigns value.parts name inner) ∨ AssignsInnermost es name place := by
  obtain ⟨value, span, hmem, hinner⟩ := h
  obtain heq | hmem := List.mem_cons.1 hmem
  · exact .inl ⟨value, span, heq.symm, hinner⟩
  · exact .inr ⟨value, span, hmem, hinner⟩

end Innermost

/-! ## The first of the targets -/

/-- Of the pairs with a name, the first is the earliest innermost target of the expressions. -/
def Firsts (pairs : List (String × Span)) (es : List Expr) : Prop :=
  ∀ name pair, (pairs.find? fun pair => pair.1 = name) = some pair →
    Earliest (AssignsInnermost es name) pair.2

section Firsts

variable {ps qs : List (String × Span)} {es fs : List Expr}

theorem not_assigns_of_find? (hps : ∀ {name place}, (name, place) ∈ ps ↔ Assigns es name place)
    {name : String} (h : (ps.find? fun pair => pair.1 = name) = none) (place : Span) :
    ¬Assigns es name place := by
  intro hassigns
  have hne := List.find?_eq_none.1 h _ (hps.2 hassigns)
  simp at hne

/-- Targets that stand one behind the other. -/
theorem Firsts.append (he : Firsts ps es) (hf : Firsts qs fs)
    (hps : ∀ {name place}, (name, place) ∈ ps ↔ Assigns es name place)
    (hbehind : ∀ {name place other}, Assigns es name place → Assigns fs name other →
      place.start ≤ other.start) : Firsts (ps ++ qs) (es ++ fs) := by
  intro name pair hpair
  rw [List.find?_append] at hpair
  cases hfirst : ps.find? fun pair => pair.1 = name with
  | some found =>
    obtain rfl : found = pair := by simpa [hfirst] using hpair
    have hearliest := he name found hfirst
    refine ⟨assignsInnermost_append.2 (.inl hearliest.holds), fun other hother => ?_⟩
    obtain hother | hother := assignsInnermost_append.1 hother
    · exact hearliest.first other hother
    · exact hbehind hearliest.holds.assigns hother.assigns
  | none =>
    have hearliest := hf name pair (by simpa [hfirst] using hpair)
    refine ⟨assignsInnermost_append.2 (.inr hearliest.holds), fun other hother => ?_⟩
    obtain hother | hother := assignsInnermost_append.1 hother
    · exact absurd hother.assigns (not_assigns_of_find? hps hfirst other)
    · exact hearliest.first other hother

/-- An expression that is no assignment adds nothing. -/
theorem Firsts.cons {e : Expr} (h : Firsts ps es)
    (he : ∀ a value span, e ≠ .binary a .assign value span) : Firsts ps (e :: es) := by
  intro name pair hpair
  have hearliest := h name pair hpair
  refine ⟨hearliest.holds.mono (List.subset_cons_self e es), fun other hother => ?_⟩
  obtain ⟨value, span, heq, -⟩ | hother := hother.of_cons
  · exact absurd heq (he _ _ _)
  · exact hearliest.first other hother

/-- The target of an assignment comes behind those of its value, and is the first only if the value
does not assign the name. -/
theorem Firsts.assign {x : String} {target span : Span} {value : Expr}
    (h : Firsts ps value.parts)
    (hps : ∀ {name place}, (name, place) ∈ ps ↔ Assigns value.parts name place) :
    Firsts (ps ++ [(x, target)])
      (.binary (.var x target) .assign value span :: .var x target :: value.parts) := by
  -- the target itself is no assignment
  have hcases : ∀ {name other}, AssignsInnermost (.binary (.var x target) .assign value span ::
      .var x target :: value.parts) name other →
      (x = name ∧ target = other ∧ ∀ inner, ¬Assigns value.parts name inner) ∨
        AssignsInnermost value.parts name other := by
    intro name other hother
    obtain ⟨_, _, heq, hinner⟩ | hother := hother.of_cons
    · cases heq
      exact .inl ⟨rfl, rfl, hinner⟩
    · obtain ⟨_, _, heq, -⟩ | hother := hother.of_cons
      · cases heq
      · exact .inr hother
  intro name pair hpair
  rw [List.find?_append] at hpair
  cases hfirst : ps.find? fun pair => pair.1 = name with
  | some found =>
    obtain rfl : found = pair := by simpa [hfirst] using hpair
    have hearliest := h name found hfirst
    refine ⟨hearliest.holds.mono fun e he => by simp [he], fun other hother => ?_⟩
    obtain ⟨-, -, hinner⟩ | hother := hcases hother
    · exact absurd hearliest.holds.assigns (hinner found.2)
    · exact hearliest.first other hother
  | none =>
    have hnone := not_assigns_of_find? hps hfirst
    obtain ⟨rfl, rfl⟩ : x = name ∧ (x, target) = pair := by simpa [hfirst] using hpair
    refine ⟨⟨value, span, List.mem_cons_self, hnone⟩, fun other hother => ?_⟩
    obtain ⟨-, rfl, -⟩ | hother := hcases hother
    · exact Int.le_refl _
    · exact absurd hother.assigns (hnone other)

end Firsts

/-! ## Along the tokens -/

section Tokens

variable {ts xs ys : List Token} {es fs : List Expr} {name : String} {place other : Span}

/-- Of two targets the one among the first tokens starts first. -/
theorem NamesIn.start_le (ho : Ordered (xs ++ ys)) (hx : NamesIn xs es) (hes : HasParts es)
    (hy : NamesIn ys fs) (hfs : HasParts fs) (h : Assigns es name place)
    (h' : Assigns fs name other) : place.start ≤ other.start := by
  have ht := hx.token_of_assigns hes h
  have hapart := ho.stop_le_start ht (hy.token_of_assigns hfs h')
  have hnonempty := ho.nonempty _ (List.mem_append_left _ ht)
  exact Int.le_trans (Int.le_of_lt hnonempty) hapart

end Tokens

namespace Placed

theorem Expression.firsts {ts : List Token} {e : Expr} (h : Expression ts e)
    (hformed : e.WellFormed) (ho : Ordered ts) : Firsts e.targets e.parts := by
  induction h with
  | value n span => exact nofun
  | var name span => exact nofun
  | neg span ha ih =>
    exact (ih hformed (ho.sublist (List.sublist_cons_self _ _))).cons (by simp)
  | @binary xs ys a b op span ha hb iha ihb =>
    obtain ⟨htarget, hfa, hfb⟩ := hformed
    have hys : ys.Sublist (xs ++ ⟨.op op, span⟩ :: ys) :=
      (List.sublist_cons_self _ _).trans (List.sublist_append_right _ _)
    have hb' := ihb hfb (ho.sublist hys)
    by_cases hop : op = .assign
    · subst hop
      obtain ⟨x, target, rfl⟩ := htarget rfl
      exact hb'.assign (Expr.mem_targets hfb)
    · have ha' := iha hfa (ho.sublist (List.sublist_append_left _ _))
      have hboth := ha'.append hb' (Expr.mem_targets hfa) fun h h' =>
        NamesIn.start_le ho ha.names a.hasParts (hb.names.mono (List.subset_cons_self _ _))
          b.hasParts h h'
      rw [Expr.targets, if_neg hop]
      exact hboth.cons fun a' value span' heq => hop (by cases heq; rfl)
  | @paren ts e o c _ ih =>
    have hts : ts.Sublist (⟨.leftParen, o⟩ :: ts ++ [⟨.rightParen, c⟩]) :=
      (List.sublist_cons_self _ _).trans (List.sublist_append_left _ _)
    exact ih hformed (ho.sublist hts)

/-- Of the targets of expressions that stand one behind the other, the first that is noted is the
earliest of the innermost ones. -/
theorem Cut.firsts {ts : List Token} {es : List Expr} (h : Cut ts es)
    (hformed : ∀ e ∈ es, e.WellFormed) (ho : Ordered ts) :
    Firsts (es.flatMap Expr.targets) (es.flatMap Expr.parts) := by
  induction h with
  | nil => exact nofun
  | @cons us rest e es xs hwhole hrest ih =>
    obtain ⟨he, hes⟩ := List.forall_mem_cons.1 hformed
    have ho' := ho.sublist (List.sublist_append_right xs (us ++ rest))
    have hfirst := hwhole.placed.firsts he (ho'.sublist (List.sublist_append_left _ _))
    have hothers := ih hes (ho'.sublist (List.sublist_append_right _ _))
    exact hfirst.append hothers (Expr.mem_targets he) fun h h' =>
      NamesIn.start_le ho' hwhole.placed.names e.hasParts hrest.names (hasParts_flatMap es) h h'

end Placed

/-! ## What the check notes -/

/-- Tokens that start at the same place are the same. -/
theorem Ordered.eq_of_start_eq {ts : List Token} (h : Ordered ts) {t u : Token} (ht : t ∈ ts)
    (hu : u ∈ ts) (hstart : t.span.start = u.span.start) : t = u := by
  have hne : ts.Pairwise fun t u => t.span.start ≠ u.span.start :=
    h.apart.imp_of_mem fun {a b} ha _ hapart => by
      have hnonempty := h.nonempty a ha
      omega
  have : Std.Symm fun t u : Token => t.span.start ≠ u.span.start := ⟨fun _ _ => Ne.symm⟩
  by_contra hdiffer
  exact hne.forall ht hu hdiffer hstart

/-- The noted targets are the earliest innermost ones of the names that the program assigns. -/
structure Findings.NotesInnermost (f : Findings) (p : Program) : Prop where
  once : f.targets.keys.Nodup
  keys : ∀ name, name ∈ f.targets.keys ↔ ∃ place, Assigns p.parts name place
  innermost : ∀ name place,
    f.targets.get? name = some place ↔ Earliest (AssignsInnermost p.parts name) place
  /-- The first target in the text is noted just if the value that is assigned to it does not assign
  the same name. -/
  foremost : ∀ name place, Earliest (Assigns p.parts name) place →
    (f.targets.get? name = some place ↔ AssignsInnermost p.parts name place)

section Check

variable {source : String} {limit : Int} {p : Program} {f : Findings} {name : String}
  {place other : Span}

/-- A program has its assignments to a name at different places. -/
theorem Program.assigns_start_inj (h : Program.parse source limit = .ok p)
    (hplace : Assigns p.parts name place) (hother : Assigns p.parts name other)
    (hstart : place.start = other.start) : place = other := by
  obtain ⟨ts, hts, -⟩ := Program.parse_eq_ok.1 h
  have heq := (tokens_ordered hts).eq_of_start_eq (token_of_assigns h hts hplace)
    (token_of_assigns h hts hother) hstart
  cases heq
  rfl

theorem Program.notesInnermost (h : Program.parse source limit = .ok p) (hf : p.check = .ok f) :
    f.NotesInnermost p := by
  have hformed : p.Each Expr.WellFormed := (parse_proper h).imp fun _ he => he.wellFormed
  obtain ⟨ts, hts, hread⟩ := Program.parse_eq_ok.1 h
  have hfirsts : Firsts p.targets p.parts := p.parts_eq ▸
    (ofTokens_placed hread).cut.firsts ((Program.each_iff p).1 hformed) (tokens_ordered hts)
  have hget := Program.get?_targets hformed hf
  have hkeys : ∀ name, name ∈ f.targets.keys ↔ ∃ place, Assigns p.parts name place := fun name =>
    Bindings.has_iff.symm.trans ((Program.check_targets (parse_proper h) hf).2 name)
  have hnoted : ∀ {name place}, f.targets.get? name = some place →
      Earliest (AssignsInnermost p.parts name) place := by
    intro name place hplace
    obtain ⟨pair, hfound, rfl⟩ := Option.map_eq_some_iff.1 ((hget name).symm.trans hplace)
    exact hfirsts name pair hfound
  have hinnermost : ∀ name place,
      f.targets.get? name = some place ↔ Earliest (AssignsInnermost p.parts name) place := by
    refine fun name place => ⟨hnoted, fun hearliest => ?_⟩
    obtain ⟨noted, hsome⟩ := Option.isSome_iff_exists.1
      (Bindings.has_iff.2 ((hkeys name).2 ⟨place, hearliest.holds.assigns⟩))
    have hfirst := hnoted hsome
    have hstart := Int.le_antisymm (hfirst.first place hearliest.holds)
      (hearliest.first noted hfirst.holds)
    rw [hsome, Program.assigns_start_inj h hfirst.holds.assigns hearliest.holds.assigns hstart]
  refine ⟨?_, hkeys, hinnermost, fun name place hearliest => ?_⟩
  · obtain rfl := Except.ok.inj ((Program.check_eq hformed).symm.trans hf)
    exact Bindings.nodup_keys_setNewAll (b := []) List.nodup_nil p.targets
  · rw [hinnermost]
    exact ⟨Earliest.holds, fun hinner => ⟨hinner, fun other hother =>
      hearliest.first other hother.assigns⟩⟩

end Check

/-- The check of a program notes, for each name that it assigns, the first target in the text among
the innermost assignments to the name. This is what is shown of the name, and where it leads. -/
theorem Program.notes_innermost {d : Document} {limit : Int} {p : Program}
    (h : Program.parse d.text limit = .ok p) : ∃ f a, p.check = .ok f ∧ f.NotesInnermost p ∧
      d.analyze limit = .ok a ∧ ∀ name place, f.targets.get? name = some place →
        let start := d.position place.start
        a.definition name = some (d.region place) ∧ a.hover name =
          some s!"**variable** `{name}`, first assigned at line {start.line}, column {start.column}" := by
  obtain ⟨f, hf⟩ := Program.check_ok (parse_proper h)
  have hnotes := Program.notesInnermost h hf
  refine ⟨f, _, hf, hnotes, Document.analyze_of_ok h hf, fun name place hplace => ⟨?_, ?_⟩⟩
  · unfold Analysis.definition
    rw [hplace]
    rfl
  · obtain ⟨ts, hts, -⟩ := Program.parse_eq_ok.1 h
    have hassigns := ((hnotes.innermost name place).1 hplace).holds.assigns
    have hname := (exists_apart h hts (token_of_assigns h hts hassigns)).1
    unfold Analysis.hover
    rw [hname.lookup_keywordNotes, hplace]
    rfl

/-- An assignment in the value of another one to the same name. -/
def assignedTwice : Document := ⟨"x = x = 1;", "a.clb"⟩

/-- The target of the inner assignment is noted, though it is not the first one. -/
theorem Program.notes_innermost_assignedTwice : ∃ p f,
    Program.parse assignedTwice.text defaultLimit = .ok p ∧ p.check = .ok f ∧
      f.targets.get? "x" = some ⟨4, 5⟩ ∧ Earliest (AssignsInnermost p.parts "x") ⟨4, 5⟩ ∧
      Assigns p.parts "x" ⟨0, 1⟩ := by
  have hcheck : (Program.parse assignedTwice.text defaultLimit).toOption.bind (fun p =>
      p.check.toOption.map fun f => (p.expressions, f.targets.get? "x")) =
        some ([.binary (.var "x" ⟨0, 1⟩) .assign
          (.binary (.var "x" ⟨4, 5⟩) .assign (.value 1 ⟨8, 9⟩) ⟨4, 9⟩) ⟨0, 9⟩], some ⟨4, 5⟩) := by
    decide +kernel
  cases h : Program.parse assignedTwice.text defaultLimit with
  | error e =>
    rw [h] at hcheck
    cases hcheck
  | ok p =>
    obtain ⟨f, -, hf, hnotes, -, -⟩ := Program.notes_innermost h
    simp only [h, hf, Except.toOption, Option.bind_some, Option.map_some, Option.some.injEq,
      Prod.mk.injEq] at hcheck
    obtain ⟨hexpressions, hget⟩ := hcheck
    refine ⟨p, f, rfl, hf, hget, (hnotes.innermost _ _).1 hget, ?_⟩
    rw [Program.parts_eq, hexpressions]
    exact ⟨_, _, List.mem_cons_self⟩

end Imp32
