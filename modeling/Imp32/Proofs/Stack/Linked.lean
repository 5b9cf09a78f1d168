import Imp32.Proofs.Stack.Run

/-!
# Programs that keep the discipline

The listing of a program that was read from a text is its checked code between the prologue and the
epilogue, with the handlers behind it (`framed_wholeOf`). So a target whose rules are sound keeps the
discipline of the stack in every program (`Discipline.Sound.keepsStack`).
-/

namespace Imp32.Assembly

/-- A handler that has a code is written without digits. -/
theorem isStem_of_handled {l : Label} (htrap : l.isTrap = true) (h : l.handled = true) :
    ∃ kind, l = .trap kind ∧ IsStem l.text := by
  cases l with
  | trap kind =>
    obtain ⟨code, hcode⟩ := Option.isSome_iff_exists.1 h
    exact ⟨kind, rfl, isStem_trap hcode⟩
  | _ => cases htrap

/-- The listing of a program in front of its epilogue, and from there on. -/
theorem wholeOf_eq (slots : Nat) (body : List Step) : wholeOf slots body =
    (Op.opening slots).map (⟨·, []⟩) ++ body ++
      ⟨.epilogue, []⟩ :: (Emitter.handlers (kindsOf body)).1.map (⟨·, []⟩) := by
  simp [wholeOf]

namespace Discipline.Sound

variable {Instr σ ο : Type} {t : Platform Instr σ ο} {r : Discipline t} (hsound : r.Sound)
  {p : Program} {body : List Step} {n : Nat}

include hsound

/-- The listing of a program frames its code. -/
theorem framed_wholeOf
    (hbody : Compile.body t.target p.isEmpty (statementsCode t.target p.slots p) 0 = .ok body n)
    (hemitted : Emitted t.target p.slots.length 0 n body) :
    r.Framed p.slots.length (((Op.opening p.slots.length).map (⟨·, []⟩) : List Step).flatMap t.expand)
      (body.flatMap t.expand) ((⟨.epilogue, []⟩ ::
        (Emitter.handlers (kindsOf body)).1.map (⟨·, []⟩) : List Step).flatMap t.expand) := by
  have hformed : ∀ step ∈ wholeOf p.slots.length body, ∃ k, step = step.op.step t.target k :=
    formed_listingOf defaultEntry hemitted
  rw [wholeOf_eq] at hformed
  have hfront := hsound.expands fun step hstep => hformed step (List.mem_append_left _ hstep)
  have hback := hsound.expands fun step hstep => hformed step (List.mem_append_right _ hstep)
  refine ⟨?_, ?_, ?_, ?_, ?_, ?_, ?_⟩
  · rw [← List.flatMap_append, ← List.flatMap_append]
    have hdistinct : ((labelsOf (wholeOf p.slots.length body)).map Label.text).Nodup :=
      distinct_wholeOf hemitted
    rw [wholeOf_eq] at hdistinct
    exact (hsound.expands hformed).distinct hdistinct
  · exact body_checked hsound.covers (.inl rfl)
      (fun hp => statementsCode_checked hsound.covers p (.inl rfl) hp) 0 body n hbody
  · intro i hi
    obtain ⟨step, hstep, hi⟩ := List.mem_flatMap.1 hi
    exact hsound.within (hemitted.inner step hstep) i hi
  · intro l hl l' htrap hhandled
    rw [← List.flatMap_append] at hl
    have hmem : l ∈ labelsOf ((Op.opening p.slots.length).map (⟨·, []⟩) ++ body) := by
      rw [← hfront.labels_eq]
      exact List.mem_filterMap.2 ⟨_, hl, rfl⟩
    obtain ⟨kind, rfl, hstem⟩ := isStem_of_handled htrap hhandled
    have hcases : l = .named defaultEntry ∨ l ∈ labelsOf body := by
      simpa [Op.opening, Step.labels, labelsOf] using hmem
    rcases hcases with rfl | hbodyLabel
    · exact defaultEntry_ne_trap kind
    · obtain ⟨stem, k, rfl, hfresh, -⟩ := hemitted.fresh l hbodyLabel
      exact (text_ne_fresh hfresh hstem k).symm
  · intro i hi
    obtain ⟨step, hstep, hi⟩ := List.mem_flatMap.1 hi
    rcases List.mem_cons.1 hstep with rfl | hstep
    · exact hsound.ends (.inl rfl) i hi
    · obtain ⟨o, ho, rfl⟩ := List.mem_map.1 hstep
      rcases Emitter.mem_handlers (kindsOf_coded body) ho with ⟨kind, -, rfl⟩ | ⟨_, code, -, rfl⟩
      · rw [hsound.covers.label] at hi
        cases List.mem_singleton.1 hi
      · exact hsound.ends (.inr ⟨code, rfl⟩) i hi
  · intro l hl
    have hmem : l ∈ labelsOf (⟨.epilogue, []⟩ ::
        (Emitter.handlers (kindsOf body)).1.map (⟨·, []⟩) : List Step) := by
      rw [← hback.labels_eq]
      exact List.mem_filterMap.2 ⟨_, hl, rfl⟩
    rw [labelsOf_cons, Emitter.labelsOf_handlers (kindsOf_coded body)] at hmem
    obtain ⟨kind, -, rfl⟩ := List.mem_map.1 hmem
    rfl
  · obtain ⟨i, rest, heq, hnone⟩ := hsound.epilogue
    rw [List.flatMap_cons, heq]
    exact ⟨i, _, rfl, hnone⟩

/-- A target whose rules are sound keeps the discipline of the stack. -/
theorem keepsStack {source : String} {limit : Int} (h : Program.parse source limit = .ok p) :
    KeepsStack t p where
  expression e names n steps n' hcode := by
    have hchecked := e.code_checked hsound.covers (.inl rfl : Known.Idle .any) (d := 0) n steps n' hcode
    simpa using hchecked.passes.depth_eq.symm
  statement s names n steps n' hcode := by
    have hchecked := s.code_checked hsound.covers (.inl rfl : Known.Idle .any) (d := 0) n steps n' hcode
    simpa using hchecked.passes.depth_eq.symm
  program := by
    obtain ⟨body, n, hbody, hemitted, -⟩ := Program.exists_body t.target (parse_proper h)
    obtain ⟨e, he, hsteps⟩ := emitProgram_eq defaultEntry hbody
    have hsteps : e.steps = wholeOf p.slots.length body := hsteps
    have hframed := framed_wholeOf hsound hbody hemitted
    have htext : t.target.lines = _ := funext hsound.lines
    refine ⟨_, _, _, ?_, List.flatMap_map _ _ _, ⟨body, n, hbody, rfl⟩, ?_,
      hframed.leveled hsound, hframed.guarded hsound ?_⟩
    · rw [Program.compile_eq he, Emitter.output, Emitter.lines, hsteps, ← List.flatMap_append,
        ← List.flatMap_append, List.map_flatMap, wholeOf_eq, htext]
    · exact List.prefix_append _ _
    · exact ⟨[⟨.textSection, []⟩, ⟨.global defaultEntry, []⟩].flatMap t.expand, by simp [Op.opening]⟩

end Discipline.Sound

end Imp32.Assembly
