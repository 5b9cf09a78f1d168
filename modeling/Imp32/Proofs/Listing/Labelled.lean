import Imp32.Proofs.Listing.Text
import Imp32.Proofs.Stack.Linked

/-!
# Listings with labels that land

A target is legible if its instructions are read as they are meant, its expansions jump to the
handlers that are announced for their operations, and it does not jump where it enters and leaves a
function (`Discipline.Legible`). Then the listing of every program is well labelled, whatever its
entry is called (`Discipline.Legible.wellLabelled`): the code of the program is checked, so that what
it jumps to is set in it or a handler, and handlers are emitted just for what its operations announce.
-/

namespace Imp32.Assembly

namespace Rules

variable {Instr : Type} {net : Instr → Int} {r : Rules net}

def goalOf? (r : Rules net) : Line Instr → Option Label
  | .instr i => r.goal? i
  | _ => none

/-- Lines that pass are instructions and labels. -/
theorem Passes.mem {lines : List (Line Instr)} {a b : Shape} (h : r.Passes lines a b)
    {x : Line Instr} (hx : x ∈ lines) : (∃ i, x = .instr i) ∨ ∃ l, x = .label l := by
  induction h with
  | nil a => cases hx
  | instr _ _ ih =>
    rcases List.mem_cons.1 hx with rfl | hx
    · exact .inl ⟨_, rfl⟩
    · exact ih hx
  | label _ ih =>
    rcases List.mem_cons.1 hx with rfl | hx
    · exact .inr ⟨_, rfl⟩
    · exact ih hx

end Rules

namespace Discipline

variable {Instr σ ο : Type} {t : Platform Instr σ ο}

/-- The line is read as it is meant. -/
def Reads (r : Discipline t) (x : Line Instr) : Prop :=
  t.target.Reads (x.text t.text).toList (x.label?.map Label.text) ((r.goalOf? x).map Label.text)

/-- What is read of the lines of a target is what is meant. -/
structure Legible (r : Discipline t) : Prop where
  instr : ∀ {i : Instr}, (∀ l, r.goal? i = some l → l.Written) → r.Reads (.instr i)
  /-- The expansion of an operation jumps to the handlers that are announced for it. -/
  traps : ∀ {slots : Nat} {op : Op}, op.Given → op.Inner slots → ∀ n,
    ((t.expand (op.step t.target n)).filterMap r.goalOf?).filter Label.isTrap =
      op.trapKinds.map Label.trap
  textSection : ∀ x ∈ t.expand ⟨.textSection, []⟩, r.Reads x ∧ r.goalOf? x = none
  global : ∀ name, t.expand ⟨.global name, []⟩ = [.directive (".globl " ++ name)]
  prologue : ∀ name slots, ∃ is : List Instr, t.expand ⟨.prologue name slots, []⟩ =
    .label (.named name) :: is.map .instr ∧ ∀ i ∈ is, r.goal? i = none
  epilogue : ∃ (is : List Instr) (ret : Instr),
    t.expand ⟨.epilogue, []⟩ = is.map .instr ++ [.instr ret] ∧
    (∀ i ∈ is, r.goal? i = none) ∧ r.goal? ret = none ∧
    firstWord ((Line.instr ret).text t.text).toList = "ret".toList
  abort : ∀ code, ∃ i : Instr, t.expand ⟨.trap code, []⟩ = [.instr i] ∧ r.goal? i = none ∧
    t.target.abortsBy (firstWord ((Line.instr i).text t.text).toList) = true

variable {r : Discipline t}

/-! ## Lines -/

theorem Reads.of_label {l : Label} (h : l.Written) : r.Reads (.label l) := reads_label h

theorem Reads.of_directive {text : String} (h : Plain text) (hdot : text.toList.head? = some '.') :
    r.Reads (.directive text) := reads_directive h hdot

/-- An instruction is read as it is meant if its mnemonic says whether it jumps, and its last operand
where. -/
theorem Reads.of_instr {i : Instr} (h : Plain (t.text i))
    (hfirst : t.target.branchesBy (firstWord ((Line.instr i).text t.text).toList) =
      (r.goal? i).isSome)
    (hlast : ∀ l, r.goal? i = some l →
      lastWord ((Line.instr i).text t.text).toList = l.text.toList) : r.Reads (.instr i) := by
  have hmargin : Plain margin := by decide
  have hgoal : ((r.goal? i).map Label.text).isSome = (r.goal? i).isSome := Option.isSome_map
  refine reads_plain (plain_append.2 ⟨hmargin, h⟩) (hfirst.trans hgoal.symm) fun label hlabel => ?_
  obtain ⟨l, hl, rfl⟩ := Option.map_eq_some_iff.1 hlabel
  exact hlast l hl

section Lines

variable {lines : List (Line Instr)} (h : ∀ x ∈ lines, r.Reads x)

include h

theorem labelsOn_eq : (lines.map fun x => (x.text t.text).toList).filterMap labelOn? =
    (lines.filterMap Line.label?).map Label.text := by
  rw [List.filterMap_map, List.map_filterMap]
  exact List.filterMap_congr fun x hx => (h x hx).label

theorem goalsOn_eq : (lines.map fun x => (x.text t.text).toList).filterMap t.target.goalOn? =
    (lines.filterMap r.goalOf?).map Label.text := by
  rw [List.filterMap_map, List.map_filterMap]
  exact List.filterMap_congr fun x hx => (h x hx).goal

end Lines

/-- A listing that sets labels of different texts, and all that it jumps to, is well labelled if its
handlers are jumped to and stand behind the return. -/
theorem wellLabelled_of_lines {front back : List (Line Instr)} {ret : Instr}
    (hreads : ∀ x ∈ front ++ .instr ret :: back, r.Reads x)
    (hdistinct : Distinct (front ++ .instr ret :: back))
    (hlands : (front ++ .instr ret :: back).filterMap r.goalOf? ⊆
      (front ++ .instr ret :: back).filterMap Line.label?)
    (hhandlers : ∀ l ∈ (front ++ .instr ret :: back).filterMap Line.label?,
      isHandler l.text = true → l ∈ (front ++ .instr ret :: back).filterMap r.goalOf?)
    (hfront : ∀ l ∈ front.filterMap Line.label?, isHandler l.text = false)
    (hret : firstWord ((Line.instr ret).text t.text).toList = "ret".toList)
    (hback : ∀ x ∈ back, firstWord (x.text t.text).toList ≠ "ret".toList)
    (hlast : t.target.Handlers (back.map fun x => (x.text t.text).toList)) :
    t.target.WellLabelled
      ((front ++ .instr ret :: back).map fun x => (x.text t.text).toList) := by
  have hlabels := labelsOn_eq hreads
  have hgoals := goalsOn_eq hreads
  refine ⟨?_, ?_, ?_, front.map _, _, back.map _, List.map_append.trans rfl, hret, ?_, hlast, ?_⟩
  · rw [hlabels]
    exact hdistinct
  · intro label hlabel
    rw [hgoals] at hlabel
    rw [hlabels]
    exact (List.Nodup.count hdistinct).trans (if_pos (List.map_subset Label.text hlands hlabel))
  · intro label hhandler
    rw [hlabels, hgoals]
    refine ⟨fun hlabel => ?_, fun hlabel => List.map_subset Label.text hlands hlabel⟩
    obtain ⟨l, hl, rfl⟩ := List.mem_map.1 hlabel
    exact List.mem_map_of_mem (hhandlers l hl hhandler)
  · intro line hline
    obtain ⟨x, hx, rfl⟩ := List.mem_map.1 hline
    exact hback x hx
  · intro label hlabel
    rw [labelsOn_eq fun x hx => hreads x (List.mem_append_left _ hx)] at hlabel
    obtain ⟨l, hl, rfl⟩ := List.mem_map.1 hlabel
    exact hfront l hl

/-! ## Listings -/

section Listings

variable (hsound : r.Sound) (hlegible : r.Legible) {p : Program} {entry : String}
  {body : List Step} {n : Nat}

section Entering

include hlegible

theorem Legible.reads_still {i : Instr} (h : r.goal? i = none) : r.Reads (.instr i) :=
  hlegible.instr fun l hl => by rw [h] at hl; cases hl

/-- Entering a function jumps nowhere. -/
theorem Legible.reads_entering (hentry : IsEntryName entry) {slots : Nat} {x : Line Instr}
    (hx : x ∈ ((Op.entering entry slots).map (⟨·, []⟩) : List Step).flatMap t.expand) :
    r.Reads x ∧ r.goalOf? x = none := by
  obtain ⟨step, hstep, hx⟩ := List.mem_flatMap.1 hx
  simp only [Op.entering, List.map_cons, List.map_nil, List.mem_cons, List.not_mem_nil,
    or_false] at hstep
  rcases hstep with rfl | rfl | rfl
  · exact hlegible.textSection x hx
  · rw [hlegible.global, List.mem_singleton] at hx
    subst hx
    have hglobal : Plain ".globl " := by decide
    have hname : Plain entry := plain_of_labelChars (Label.written_named hentry)
    exact ⟨.of_directive (plain_append.2 ⟨hglobal, hname⟩) (by simp), rfl⟩
  · obtain ⟨is, hexpand, hstill⟩ := hlegible.prologue entry slots
    rw [hexpand] at hx
    rcases List.mem_cons.1 hx with rfl | hx
    · exact ⟨.of_label (Label.written_named hentry), rfl⟩
    · obtain ⟨i, hi, rfl⟩ := List.mem_map.1 hx
      exact ⟨hlegible.reads_still (hstill i hi), hstill i hi⟩

end Entering

/-- The body of a function: its operations name labels that were given out, and what its lines jump to
is set in them or a handler. -/
structure Body (r : Discipline t) (slots : Nat) (body : List Step) : Prop where
  emitted : ∃ n, Emitted t.target slots 0 n body
  given : AllGiven body
  checked : r.Checked [] (body.flatMap t.expand) ⟨0, .any⟩ ⟨0, .word⟩

namespace Body

theorem of_code (hsound : r.Sound)
    (hbody : Compile.body t.target p.isEmpty (statementsCode t.target p.slots p) 0 = .ok body n)
    (hemitted : Emitted t.target p.slots.length 0 n body) : r.Body p.slots.length body where
  emitted := ⟨n, hemitted⟩
  given := body_given _ (statementsCode_given p) 0 body n hbody
  checked := body_checked hsound.covers (.inl rfl)
    (fun hne => statementsCode_checked hsound.covers p (.inl rfl) hne) 0 body n hbody

variable {slots : Nat} (hb : r.Body slots body)

include hb

theorem given_of_mem_labelsOf {l : Label} (hl : l ∈ labelsOf body) : l.Given := by
  obtain ⟨n, hemitted⟩ := hb.emitted
  obtain ⟨step, hstep, hl⟩ := List.mem_flatMap.1 hl
  exact step.given_of_mem_labels (hb.given step hstep) (hemitted.inner step hstep)
    (hemitted.formed step hstep) hl

include hsound in
theorem labels_eq : (body.flatMap t.expand).filterMap Line.label? = labelsOf body := by
  obtain ⟨n, hemitted⟩ := hb.emitted
  exact (hsound.expands hemitted.formed).labels_eq

include hlegible

/-- The lines jump to the handlers that the operations announce. -/
theorem traps_eq : ((body.flatMap t.expand).filterMap r.goalOf?).filter Label.isTrap =
    (body.flatMap fun step => step.op.trapKinds).map Label.trap := by
  obtain ⟨n, hemitted⟩ := hb.emitted
  rw [List.filterMap_flatMap, List.filter_flatMap, List.map_flatMap, List.flatMap_def,
    List.flatMap_def]
  refine congrArg List.flatten (List.map_congr_left fun step hstep => ?_)
  obtain ⟨k, hk⟩ := hemitted.formed step hstep
  have htraps := hlegible.traps (hb.given step hstep) (hemitted.inner step hstep) k
  rwa [← hk] at htraps

theorem mem_goals_trap {kind : String} :
    .trap kind ∈ (body.flatMap t.expand).filterMap r.goalOf? ↔ kind ∈ kindsOf body := by
  have hmem : .trap kind ∈ (body.flatMap t.expand).filterMap r.goalOf? ↔
      .trap kind ∈ ((body.flatMap t.expand).filterMap r.goalOf?).filter Label.isTrap := by
    simp [Label.isTrap]
  rw [hmem, hb.traps_eq hlegible, List.mem_map_of_injective fun _ _ => Label.trap.inj, kindsOf,
    Emitter.mem_foldl_addNew]
  simp

include hsound

/-- What the lines jump to is the handler of a failure that is in use, or a label of the body. -/
theorem goal_cases {l : Label} (hl : l ∈ (body.flatMap t.expand).filterMap r.goalOf?) :
    (∃ kind ∈ kindsOf body, l = .trap kind) ∨ l ∈ labelsOf body := by
  cases htrap : l.isTrap with
  | true =>
    cases l with
    | trap kind => exact .inl ⟨kind, (hb.mem_goals_trap hlegible).1 hl, rfl⟩
    | _ => cases htrap
  | false =>
    obtain ⟨x, hx, hgoal⟩ := List.mem_filterMap.1 hl
    cases x with
    | instr i =>
      obtain ⟨k, hk⟩ := List.getElem?_of_mem hx
      obtain ⟨k', hk', -⟩ := hb.checked.exists_label hk hgoal htrap
      refine .inr ?_
      rw [← hb.labels_eq hsound]
      exact List.mem_filterMap.2 ⟨_, List.mem_of_getElem? hk', rfl⟩
    | _ => cases hgoal

theorem reads {x : Line Instr} (hx : x ∈ body.flatMap t.expand) : r.Reads x := by
  rcases hb.checked.passes.mem hx with ⟨i, rfl⟩ | ⟨l, rfl⟩
  · refine hlegible.instr fun l hgoal => ?_
    have hl : l ∈ (body.flatMap t.expand).filterMap r.goalOf? :=
      List.mem_filterMap.2 ⟨_, hx, hgoal⟩
    rcases hb.goal_cases hsound hlegible hl with ⟨kind, hkind, rfl⟩ | hl
    · obtain ⟨code, hcode⟩ := kindsOf_coded body kind hkind
      exact Label.written_trap hcode
    · exact (hb.given_of_mem_labelsOf hl).written
  · have hl : l ∈ (body.flatMap t.expand).filterMap Line.label? :=
      List.mem_filterMap.2 ⟨_, hx, rfl⟩
    rw [hb.labels_eq hsound] at hl
    exact .of_label (hb.given_of_mem_labelsOf hl).written

end Body

/-! ## Whole listings -/

/-- The labels of a listing are written apart, if its entry is written like none of the others. -/
theorem nodup_listing {slots : Nat} (hemitted : Emitted t.target slots 0 n body)
    (hgiven : ∀ l ∈ labelsOf body, l.Given) (hentry : IsEntryName entry) :
    ((.named entry :: (labelsOf body ++ (kindsOf body).map Label.trap)).map Label.text).Nodup := by
  have hwhole : ((labelsOf (listingOf defaultEntry slots body)).map Label.text).Nodup :=
    distinct_wholeOf hemitted
  rw [labelsOf_listingOf, List.map_cons] at hwhole
  rw [List.map_cons]
  refine List.nodup_cons.2 ⟨fun hmem => ?_, (List.nodup_cons.1 hwhole).2⟩
  obtain ⟨l, hl, heq⟩ := List.mem_map.1 hmem
  have hother : ∀ name, l ≠ .named name := by
    rcases List.mem_append.1 hl with hl | hl
    · obtain ⟨stem, -, k, rfl⟩ := hgiven l hl
      exact nofun
    · obtain ⟨kind, -, rfl⟩ := List.mem_map.1 hl
      exact nofun
  have hdot := Label.head?_text_of_ne_named hother
  rw [heq] at hdot
  exact hentry.head?_ne hdot

/-- The steps behind a body. -/
def leaving (body : List Step) : List Step :=
  ⟨.epilogue, []⟩ :: (Emitter.handlers (kindsOf body)).1.map (⟨·, []⟩)

theorem lines_listingOf (entry : String) (slots : Nat) (body : List Step) :
    (listingOf entry slots body).flatMap t.expand =
      ((Op.entering entry slots).map (⟨·, []⟩) : List Step).flatMap t.expand ++
        body.flatMap t.expand ++ (leaving body).flatMap t.expand := by
  simp [listingOf, leaving]

include hsound hlegible

/-- The lines of the handlers set their labels and abort. -/
theorem Legible.handlers_cases {x : Line Instr} (hx : x ∈
    ((Emitter.handlers (kindsOf body)).1.map (⟨·, []⟩) : List Step).flatMap t.expand) :
    (∃ kind ∈ kindsOf body, x = .label (.trap kind)) ∨
      ∃ i, x = .instr i ∧ r.goal? i = none ∧
        firstWord ((Line.instr i).text t.text).toList ≠ "ret".toList := by
  obtain ⟨step, hstep, hx⟩ := List.mem_flatMap.1 hx
  obtain ⟨o, ho, rfl⟩ := List.mem_map.1 hstep
  rcases Emitter.mem_handlers (kindsOf_coded body) ho with ⟨kind, hkind, rfl⟩ | ⟨_, code, -, rfl⟩
  · rw [hsound.covers.label] at hx
    exact .inl ⟨kind, hkind, List.mem_singleton.1 hx⟩
  · obtain ⟨i, hexpand, hgoal, habort⟩ := hlegible.abort code
    rw [hexpand] at hx
    exact .inr ⟨i, List.mem_singleton.1 hx, hgoal, ne_ret_of_abortsBy habort⟩

/-- The handlers of failures that have codes. -/
theorem Legible.handlers_lines {kinds : List String}
    (hcodes : ∀ kind ∈ kinds, ∃ code, trapCode? kind = some code) : t.target.Handlers
      ((((Emitter.handlers kinds).1.map (⟨·, []⟩) : List Step).flatMap t.expand).map
        fun x => (x.text t.text).toList) := by
  induction kinds with
  | nil => exact .nil
  | cons kind kinds ih =>
    obtain ⟨⟨code, hcode⟩, hkinds⟩ := List.forall_mem_cons.1 hcodes
    obtain ⟨i, hexpand, -, habort⟩ := hlegible.abort code
    rw [Emitter.handlers_cons hcode, List.map_cons, List.map_cons, List.flatMap_cons,
      List.flatMap_cons, hsound.covers.label, hexpand]
    exact .cons (Reads.of_label (r := r) (Label.written_trap hcode)).label
      (Label.isHandler_trap kind) habort (ih hkinds)

/-- Leaving a function jumps nowhere. -/
theorem Legible.reads_leaving {x : Line Instr} (hx : x ∈ (leaving body).flatMap t.expand) :
    r.Reads x ∧ r.goalOf? x = none := by
  rw [leaving, List.flatMap_cons] at hx
  rcases List.mem_append.1 hx with hx | hx
  · obtain ⟨is, ret, hepilogue, hstill, hstop, -⟩ := hlegible.epilogue
    rw [hepilogue] at hx
    rcases List.mem_append.1 hx with hx | hx
    · obtain ⟨i, hi, rfl⟩ := List.mem_map.1 hx
      exact ⟨hlegible.reads_still (hstill i hi), hstill i hi⟩
    · rw [List.mem_singleton.1 hx]
      exact ⟨hlegible.reads_still hstop, hstop⟩
  · rcases hlegible.handlers_cases hsound hx with ⟨kind, hkind, rfl⟩ | ⟨i, rfl, hgoal, -⟩
    · obtain ⟨code, hcode⟩ := kindsOf_coded body kind hkind
      exact ⟨.of_label (Label.written_trap hcode), rfl⟩
    · exact ⟨hlegible.reads_still hgoal, hgoal⟩

variable {slots : Nat} (hentry : IsEntryName entry)

include hentry

/-- A listing jumps where its body does. -/
theorem Legible.goals_listing :
    ((listingOf entry slots body).flatMap t.expand).filterMap r.goalOf? =
      (body.flatMap t.expand).filterMap r.goalOf? := by
  have henter : (((Op.entering entry slots).map (⟨·, []⟩) : List Step).flatMap t.expand).filterMap
      r.goalOf? = [] :=
    List.filterMap_eq_nil_iff.2 fun x hx => (hlegible.reads_entering hentry hx).2
  have hleave : ((leaving body).flatMap t.expand).filterMap r.goalOf? = [] :=
    List.filterMap_eq_nil_iff.2 fun x hx => (hlegible.reads_leaving hsound hx).2
  rw [lines_listingOf, List.filterMap_append, List.filterMap_append, henter, hleave,
    List.nil_append, List.append_nil]

variable (hb : r.Body slots body)

include hb

theorem Legible.reads_listing {x : Line Instr}
    (hx : x ∈ (listingOf entry slots body).flatMap t.expand) : r.Reads x := by
  rw [lines_listingOf] at hx
  rcases List.mem_append.1 hx with hx | hx
  · rcases List.mem_append.1 hx with hx | hx
    · exact (hlegible.reads_entering hentry hx).1
    · exact hb.reads hsound hlegible hx
  · exact (hlegible.reads_leaving hsound hx).1

omit hlegible hentry in
theorem Body.labels_listing :
    ((listingOf entry slots body).flatMap t.expand).filterMap Line.label? =
      .named entry :: (labelsOf body ++ (kindsOf body).map Label.trap) := by
  obtain ⟨n, hemitted⟩ := hb.emitted
  rw [(hsound.expands (formed_listingOf entry hemitted)).labels_eq, labelsOf_listingOf]

omit hlegible hentry in
/-- In front of the epilogue, a listing sets its entry and the labels of its body. -/
theorem Body.labels_front :
    (((Op.entering entry slots).map (⟨·, []⟩) : List Step).flatMap t.expand ++
      body.flatMap t.expand).filterMap Line.label? = .named entry :: labelsOf body := by
  obtain ⟨n, hemitted⟩ := hb.emitted
  obtain ⟨rest, hrest, -⟩ := mem_listingOf entry hemitted
  have hformed := formed_listingOf entry hemitted
  rw [hrest] at hformed
  have henter := hsound.expands fun step hstep => hformed step (List.mem_append_left _ hstep)
  rw [List.filterMap_append, henter.labels_eq, hb.labels_eq hsound]
  rfl

omit hsound hlegible in
/-- Neither the entry nor a label of the body is one of a handler. -/
theorem Body.isHandler_eq_false {l : Label} (hl : l ∈ .named entry :: labelsOf body) :
    isHandler l.text = false := by
  rcases List.mem_cons.1 hl with rfl | hl
  · exact hentry.isHandler_eq_false
  · exact (hb.given_of_mem_labelsOf hl).isHandler_eq_false

/-- The lines of a listing are well labelled. -/
theorem Legible.wellLabelled : t.target.WellLabelled
    (((listingOf entry slots body).flatMap t.expand).map fun x => (x.text t.text).toList) := by
  obtain ⟨n, hemitted⟩ := hb.emitted
  obtain ⟨is, ret, hepilogue, -, -, hret⟩ := hlegible.epilogue
  have hlabels : ((listingOf entry slots body).flatMap t.expand).filterMap Line.label? = _ :=
    hb.labels_listing hsound
  have hgoals : ((listingOf entry slots body).flatMap t.expand).filterMap r.goalOf? = _ :=
    hlegible.goals_listing hsound hentry
  have hreads : ∀ x ∈ (listingOf entry slots body).flatMap t.expand, r.Reads x :=
    fun x hx => hlegible.reads_listing hsound hentry hb hx
  have hsplit : (listingOf entry slots body).flatMap t.expand =
      (((Op.entering entry slots).map (⟨·, []⟩) : List Step).flatMap t.expand ++
        body.flatMap t.expand ++ is.map .instr) ++ .instr ret ::
      ((Emitter.handlers (kindsOf body)).1.map (⟨·, []⟩) : List Step).flatMap t.expand := by
    rw [lines_listingOf, leaving, List.flatMap_cons, hepilogue]
    simp
  rw [hsplit] at hlabels hgoals hreads ⊢
  refine wellLabelled_of_lines hreads ?_ ?_ ?_ ?_ hret ?_ ?_
  · unfold Distinct
    rw [hlabels]
    exact nodup_listing hemitted (fun l hl => hb.given_of_mem_labelsOf hl) hentry
  · rw [hlabels, hgoals]
    intro l hl
    refine List.mem_cons_of_mem _ (List.mem_append.2 ?_)
    rcases hb.goal_cases hsound hlegible hl with ⟨kind, hkind, rfl⟩ | hl
    · exact .inr (List.mem_map_of_mem hkind)
    · exact .inl hl
  · rw [hlabels, hgoals, ← List.cons_append]
    intro l hl hhandler
    rcases List.mem_append.1 hl with hl | hl
    · rw [hb.isHandler_eq_false hentry hl] at hhandler
      cases hhandler
    · obtain ⟨kind, hkind, rfl⟩ := List.mem_map.1 hl
      exact (hb.mem_goals_trap hlegible).2 hkind
  · intro l hl
    rw [List.filterMap_append, hb.labels_front hsound, labels_instr, List.append_nil] at hl
    exact hb.isHandler_eq_false hentry hl
  · intro x hx
    rcases hlegible.handlers_cases hsound hx with ⟨kind, -, rfl⟩ | ⟨i, rfl, -, hword⟩
    · exact firstWord_trap_ne kind
    · exact hword
  · exact hlegible.handlers_lines hsound (kindsOf_coded body)

omit hb in
/-- Whatever its entry is called, the text of a program is well labelled. -/
theorem Legible.compile_wellLabelled {p : Program} (hp : p.Proper) :
    ∃ text, p.compile t.target entry = .ok text ∧
      t.target.WellLabelled (Text.linesOf text.toList) := by
  obtain ⟨body, n, hbody, hemitted, -⟩ := Program.exists_body t.target hp
  obtain ⟨e, he, hsteps⟩ := emitProgram_eq entry hbody
  have hb : r.Body p.slots.length body := .of_code hsound hbody hemitted
  have hwell := hlegible.wellLabelled hsound hentry hb
  have hlines : e.lines t.target =
      ((listingOf entry p.slots.length body).flatMap t.expand).map (Line.text t.text) := by
    have htext : t.target.lines = _ := funext hsound.lines
    rw [Emitter.lines, hsteps, htext, List.map_flatMap]
  have hne : e.lines t.target ≠ [] := by
    obtain ⟨front, last, back, hsplit, -⟩ := hwell.behind
    intro hnil
    rw [hlines, List.map_eq_nil_iff] at hnil
    rw [hnil] at hsplit
    simp at hsplit
  have hinLine : ∀ line ∈ e.lines t.target, ∀ c ∈ line.toList, Text.inLine c = true := by
    rw [hlines]
    intro line hline
    obtain ⟨x, hx, rfl⟩ := List.mem_map.1 hline
    exact (hlegible.reads_listing hsound hentry hb hx).inLine
  refine ⟨_, Program.compile_eq he, ?_⟩
  rw [Emitter.output, Text.linesOf_intercalate hne hinLine, hlines, List.map_map]
  exact hwell

end Listings

end Discipline

end Imp32.Assembly
