import Imp32.Proofs.Spans.Trees
import Imp32.Proofs.Totality

/-!
# Places that are reported

Every place that is reported of a text is a place in it (`parse_inPlace`). The nodes of a tree that
was read stand at tokens of the text, an error of the parser is shown at one of them, and what a run
or a check reports has the span of a node.
-/

namespace Imp32

/-- If the failure is shown at a place, it is one in the text. -/
def Failure.Within (failure : Failure) (source : String) : Prop :=
  ∀ fault ∈ failure.fault?, ∀ span ∈ fault.span, span.Within source.toList

/-- What a check reports is in the text: the marks of its warnings and the places of the
variables. -/
structure Findings.Within (f : Findings) (source : String) : Prop where
  marks : ∀ d ∈ f.diagnostics, ∀ mark ∈ d.marks, mark.span.Within source.toList
  targets : ∀ entry ∈ f.targets, entry.2.Within source.toList

/-- The expression was read from the tokens of the text, and its spans are in order. -/
structure Expr.InPlace (source : String) (ts : List Token) (e : Expr) : Prop where
  expressions : ∀ a ∈ e.parts, Nests ts a.span a.childSpans
  runs : ∀ env error env', e.eval env = .error (.error error) env' →
    (Failure.eval error).Within source

/-- The program was read from the tokens of the text, and its spans are in order. -/
structure Program.InPlace (source : String) (ts : List Token) (p : Program) : Prop where
  expressions : ∀ e ∈ p.parts, Nests ts e.span e.childSpans
  statements : ∀ s ∈ p.statements, Nests ts s.span s.childSpans
  /-- A statement at any depth goes from the first to the last of the tokens it was read from. -/
  whole : ∀ s ∈ p.statements, ∃ us, us <:+: ts ∧ Placed.Statement us s ∧ Covers us s.span
  apart : Span.Apart (p.map Stmt.span)
  runs : ∀ turns env error env', execAll turns p 0 env = .error (.error error) env' →
    (Failure.eval error).Within source
  checks : ∃ f, p.check = .ok f ∧ f.Within source

/-- Reading the text gives something that is in place, or a failure that is shown in the text. -/
def ReadInPlace {α : Type} (InPlace : String → List Token → α → Prop) (source : String) :
    Except Failure α → Prop
  | .ok a => ∃ ts, tokens source = .ok ts ∧ InPlace source ts a
  | .error failure => failure.Within source

section Text

variable {source : String} {ts : List Token}

theorem Touches.within {span : Span} (h : Touches ts span) (hts : tokens source = .ok ts) :
    span.Within source.toList := by
  obtain ⟨t, ht, hstart⟩ := h.starts
  obtain ⟨u, hu, hstop⟩ := h.stops
  exact ⟨hstart ▸ (tokens_within hts t ht).start, hstop ▸ (tokens_within hts u hu).stop, h.nonempty⟩

/-! ## Errors of reading -/

theorem ParseError.ShownIn.within {e : ParseError} (h : e.ShownIn ts)
    (hts : tokens source = .ok ts) : (Failure.parse e).Within source := by
  obtain ⟨fault, hfault, htoken⟩ := h
  intro fault' hfault' span hspan
  obtain rfl : fault = fault' := Option.some.inj (hfault.symm.trans hfault')
  obtain ⟨t, ht, rfl⟩ := htoken span hspan
  exact tokens_within hts t ht

/-- Without tokens there is no place to show an error at. -/
theorem TokenReader.wholeExpression_nil (limit : Int) : ∃ e s,
    wholeExpression (.start [] limit) = .error e s ∧ ∀ fault ∈ e.fault?, fault.span = none := by
  have hexpression : ∃ e s, expression (TokenCursor.start [] limit).room Precedence.lowest
      (.start [] limit) = .error e s ∧ ∀ fault ∈ e.fault?, fault.span = none := by
    cases (TokenCursor.start [] limit).room with
    | zero => exact ⟨_, _, rfl, nofun⟩
    | succ room =>
      refine ⟨_, _, rfl, fun fault hfault => ?_⟩
      cases hfault
      rfl
  obtain ⟨e, s, h, hnowhere⟩ := hexpression
  exact ⟨e, s, (bind_of_ok rfl).trans (bind_of_error h), hnowhere⟩

theorem Expr.ofTokens_error_within {limit : Int} {e : ParseError}
    (h : Expr.ofTokens ts limit = .error e) (hts : tokens source = .ok ts) :
    (Failure.parse e).Within source := by
  by_cases hne : ts = []
  · subst hne
    obtain ⟨e', s, hread, hnowhere⟩ := TokenReader.wholeExpression_nil limit
    unfold Expr.ofTokens readTokens at h
    rw [hread] at h
    cases h
    intro fault hfault span hspan
    rw [hnowhere fault hfault] at hspan
    cases hspan
  · exact (readTokens_error_shown .wholeExpression hne h).within hts

/-- A text that is read by its tokens, whatever reads them. -/
theorem readText_inPlace {α : Type} {read : List Token → Except ParseError α}
    {InPlace : String → List Token → α → Prop}
    (hok : ∀ ts a, tokens source = .ok ts → read ts = .ok a → InPlace source ts a)
    (herror : ∀ ts e, tokens source = .ok ts → read ts = .error e →
      (Failure.parse e).Within source) : ReadInPlace InPlace source (readText read source) := by
  unfold readText
  cases hts : tokens source with
  | error e => exact tokens_error_within hts
  | ok ts =>
    show ReadInPlace InPlace source ((read ts).mapError Failure.parse)
    cases hread : read ts with
    | error e => exact herror ts e hts hread
    | ok a => exact ⟨ts, hts, hok ts a hts hread⟩

/-! ## Errors of runs -/

/-- A run fails at an expression of the program. -/
theorem Program.MayHalt.exists_part {p : Program} {error : EvalError}
    (h : p.MayHalt (.error error)) :
    ∀ fault ∈ error.fault?, ∀ span ∈ fault.span, ∃ e ∈ p.parts, e.span = span := by
  intro fault hfault span hspan
  cases h with
  | divisionByZero hmem =>
    cases hfault
    cases hspan
    exact ⟨_, hmem, rfl⟩
  | negativeExponent _ hmem =>
    cases hfault
    cases hspan
    exact ⟨_, hmem, rfl⟩
  | unboundVariable hmem =>
    cases hfault
    cases hspan
    exact ⟨_, hmem, rfl⟩

theorem Program.MayHalt.within {p : Program} {error : EvalError} (h : p.MayHalt (.error error))
    (hparts : ∀ e ∈ p.parts, e.span.Within source.toList) : (Failure.eval error).Within source := by
  intro fault hfault span hspan
  obtain ⟨e, he, rfl⟩ := h.exists_part fault hfault span hspan
  exact hparts e he

/-! ## Findings -/

/-- A warning has the place of a loop or of a variable that is read. -/
theorem Program.check_within {p : Program} (h : p.Each Expr.WellFormed)
    (hparts : ∀ e ∈ p.parts, e.span.Within source.toList)
    (hstatements : ∀ s ∈ p.statements, s.span.Within source.toList) :
    ∃ f, p.check = .ok f ∧ f.Within source := by
  have hvar : ∀ {pairs : List (String × Span)}, (∀ pair ∈ pairs, .var pair.1 pair.2 ∈ p.parts) →
      ∀ pair ∈ Bindings.setNewAll [] pairs, pair.2.Within source.toList := by
    intro pairs hpairs pair hpair
    obtain hnil | hpair := Bindings.mem_of_mem_setNewAll hpair
    · cases hnil
    · exact hparts _ (hpairs pair hpair)
  have hreads : ∀ pair ∈ p.reads, .var pair.1 pair.2 ∈ p.parts := fun pair hpair => by
    obtain ⟨e, he, hmem⟩ := List.mem_flatMap.1 hpair
    exact Program.mem_parts_of_mem_expressions he (Expr.mem_parts_of_mem_reads hmem)
  have htargets : ∀ pair ∈ p.targets, .var pair.1 pair.2 ∈ p.parts := fun pair hpair => by
    obtain ⟨e, he, hmem⟩ := List.mem_flatMap.1 hpair
    exact Program.mem_parts_of_mem_expressions he (Expr.mem_parts_of_mem_targets hmem)
  refine ⟨_, Program.check_eq h, ?_, hvar htargets⟩
  intro d hd mark hmark
  obtain hloop | hmissing := List.mem_append.1 hd
  · obtain ⟨span, hspan, rfl⟩ := List.mem_map.1 hloop
    obtain ⟨s, hs, hloop⟩ := List.mem_filterMap.1 hspan
    obtain rfl := List.mem_singleton.1 hmark
    rw [← Stmt.span_of_unconditional hloop]
    exact hstatements s hs
  · obtain ⟨pair, hpair, rfl⟩ := List.mem_map.1 hmissing
    obtain rfl := List.mem_singleton.1 hmark
    exact hvar hreads pair (List.mem_filter.1 hpair).1

end Text

/-! ## What is read -/

theorem Expr.ofTokens_inPlace {source : String} {ts : List Token} {limit : Int} {e : Expr}
    (hts : tokens source = .ok ts) (h : Expr.ofTokens ts limit = .ok e) : e.InPlace source ts := by
  have hwhole := Expr.ofTokens_placed h
  have hproper : Program.Proper [.expr e e.span] :=
    ⟨hwhole.derives.proper (tokens_iff_spells.1 ⟨ts, hts, rfl⟩).proper, trivial⟩
  have hnests := hwhole.placed.nests (tokens_ordered hts)
  refine ⟨hnests, fun env error env' hrun => ?_⟩
  have hallowed := Program.exec_allowed hproper 0 env
  have hexec : execAll 0 [.expr e e.span] 0 env = .error (.error error) env' := bind_of_error hrun
  rw [hexec] at hallowed
  refine hallowed.1.within fun a ha => ?_
  rw [Program.parts, Program.parts, List.append_nil] at ha
  exact (hnests a ha).touches.within hts

theorem Program.ofTokens_inPlace {source : String} {ts : List Token} {limit : Int} {p : Program}
    (hts : tokens source = .ok ts) (h : Program.ofTokens ts limit = .ok p) :
    p.InPlace source ts := by
  have hplaced := ofTokens_placed h
  have hordered := tokens_ordered hts
  have hproper := parse_proper (Program.parse_eq_ok.2 ⟨ts, hts, h⟩)
  have hexpressions : ∀ e ∈ p.parts, Nests ts e.span e.childSpans := by
    intro a ha
    rw [Program.parts_eq] at ha
    obtain ⟨e, he, hmem⟩ := List.mem_flatMap.1 ha
    obtain ⟨us, hus, hwhole⟩ := hplaced.cut.mem he
    exact (hwhole.placed.nests (hordered.sublist hus.sublist) a hmem).mono hus.subset
  have hstatements : ∀ s ∈ p.statements, ∃ us, us <:+: ts ∧ Placed.Statement us s ∧
      Nests us s.span s.childSpans ∧ Covers us s.span := by
    intro s hs
    obtain ⟨us, hus, hstatement⟩ := hplaced.each_holds s hs
    have hus' := hordered.sublist hus.sublist
    exact ⟨us, hus, hstatement, hstatement.nests hus', hstatement.covers hus'⟩
  have hnests : ∀ s ∈ p.statements, Nests ts s.span s.childSpans := fun s hs => by
    obtain ⟨us, hus, -, hnests, -⟩ := hstatements s hs
    exact hnests.mono hus.subset
  have hparts : ∀ e ∈ p.parts, e.span.Within source.toList := fun e he =>
    (hexpressions e he).touches.within hts
  refine ⟨hexpressions, hnests, fun s hs => ?_, (hplaced.row hordered).apart, ?_, ?_⟩
  · obtain ⟨us, hus, hstatement, -, hcovers⟩ := hstatements s hs
    exact ⟨us, hus, hstatement, hcovers⟩
  · intro turns env error env' hrun
    have hallowed := Program.exec_allowed hproper turns env
    rw [hrun] at hallowed
    exact hallowed.1.within hparts
  · exact Program.check_within (hproper.imp fun _ he => he.wellFormed) hparts
      fun s hs => (hnests s hs).touches.within hts

/-- Whatever the text, the trees that are read from it have their spans in order, and each place
that the scanner, the parser, a run or the check reports is a range of characters of the text. -/
theorem parse_inPlace (source : String) (limit : Int) :
    ReadInPlace Program.InPlace source (Program.parse source limit) ∧
      ReadInPlace Expr.InPlace source (Expr.parse source limit) :=
  ⟨readText_inPlace (fun _ _ => Program.ofTokens_inPlace)
      fun _ _ hts h => (ofTokens_error_shown h).within hts,
    readText_inPlace (fun _ _ => Expr.ofTokens_inPlace)
      fun _ _ hts h => Expr.ofTokens_error_within h hts⟩

end Imp32
