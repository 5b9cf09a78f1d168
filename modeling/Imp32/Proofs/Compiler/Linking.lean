import Imp32.Proofs.Compiler.Slots

/-!
# Linked programs

A program that was read from a text is compiled to steps that stand on their own (`Assembled`): no
two labels are written alike, every failure has its handler, and the stack machine that has entered
the function ends as the evaluator does. `Program.Returns`, `Program.FailsWith` and
`Program.Diverges` say how that is, for as many turns as the loops need.
-/

namespace Imp32

open Assembly

/-! ## How a program ends -/

namespace Program

/-- With enough turns, the program has a value. -/
def Returns (p : Program) (v : Int) : Prop := ∃ turns env, p.eval turns = .ok v env

/-- With enough turns, the program fails. -/
def FailsWith (p : Program) (e : EvalError) : Prop :=
  ∃ turns env, p.eval turns = .error (.error e) env

/-- The program runs out of turns, however many it is given. -/
def Diverges (p : Program) : Prop := ∀ turns, ∃ env, p.eval turns = .error .outOfTurns env

/-- With enough turns, the program fails in a way that is handled as this kind. -/
def FailsAs (p : Program) (kind : String) : Prop :=
  ∃ e, p.FailsWith e ∧ e.trapKind? = some kind

theorem failsAs_div_zero {p : Program} :
    p.FailsAs "div_zero" ↔ ∃ span, p.FailsWith (.divisionByZero span) := by
  refine ⟨fun ⟨e, he, hkind⟩ => ?_, fun ⟨span, he⟩ => ⟨_, he, rfl⟩⟩
  cases e with
  | divisionByZero span => exact ⟨span, he⟩
  | _ => simp [EvalError.trapKind?] at hkind

theorem failsAs_unbound {p : Program} :
    p.FailsAs "unbound" ↔ ∃ name span, p.FailsWith (.unboundVariable name span) := by
  refine ⟨fun ⟨e, he, hkind⟩ => ?_, fun ⟨name, span, he⟩ => ⟨_, he, rfl⟩⟩
  cases e with
  | unboundVariable name span => exact ⟨name, span, he⟩
  | _ => simp [EvalError.trapKind?] at hkind

theorem failsAs_neg_exp {p : Program} :
    p.FailsAs "neg_exp" ↔ ∃ n span, p.FailsWith (.negativeExponent n span) := by
  refine ⟨fun ⟨e, he, hkind⟩ => ?_, fun ⟨n, span, he⟩ => ⟨_, he, rfl⟩⟩
  cases e with
  | negativeExponent n span => exact ⟨n, span, he⟩
  | _ => simp [EvalError.trapKind?] at hkind

theorem ends_or_diverges (p : Program) :
    (∃ v, p.Returns v) ∨ (∃ e, p.FailsWith e) ∨ p.Diverges := by
  by_cases h : p.Diverges
  · exact .inr (.inr h)
  unfold Diverges at h
  simp only [Classical.not_forall, not_exists] at h
  obtain ⟨turns, hturns⟩ := h
  cases hrun : p.eval turns with
  | ok v env => exact .inl ⟨v, turns, env, hrun⟩
  | error halt env =>
    cases halt with
    | error e => exact .inr (.inl ⟨e, turns, env, hrun⟩)
    | outOfTurns => exact absurd hrun (hturns env)

end Program

namespace Assembly

/-! ## Labels as they are written -/

/-- The digits of a text, read as a number. -/
def numberIn (text : String) : Nat := Nat.ofDigitChars 10 (text.toList.filter Char.isDigit) 0

theorem filter_isDigit_of_isStem {text : String} (h : IsStem text) :
    text.toList.filter Char.isDigit = [] :=
  List.filter_eq_nil_iff.2 fun c hc => by simpa using List.all_eq_true.1 h c hc

theorem filter_isDigit_toDigits (n : Nat) :
    (Nat.toDigits 10 n).filter Char.isDigit = Nat.toDigits 10 n :=
  List.filter_eq_self.2 fun _ hc => Nat.isDigit_of_mem_toDigits (by decide) (by decide) hc

theorem digits_fresh {stem : String} (h : IsStem stem) (n : Nat) :
    (Label.fresh stem n).text.toList.filter Char.isDigit = Nat.toDigits 10 n := by
  show (s!".L{stem}{n}").toList.filter Char.isDigit = _
  simp [toString, filter_isDigit_of_isStem h, filter_isDigit_toDigits]

theorem numberIn_fresh {stem : String} (h : IsStem stem) (n : Nat) :
    numberIn (Label.fresh stem n).text = n := by
  unfold numberIn
  rw [digits_fresh h, Nat.ofDigitChars_ten_toDigits]

/-- A label that is written without a digit is none of the numbered ones. -/
theorem text_ne_fresh {stem text : String} (h : IsStem stem) (htext : IsStem text) (n : Nat) :
    text ≠ (Label.fresh stem n).text := by
  rintro rfl
  have hnil := filter_isDigit_of_isStem htext
  rw [digits_fresh h] at hnil
  exact Nat.toDigits_ne_nil hnil

theorem isStem_trap {kind : String} {code : Int} (h : trapCode? kind = some code) :
    IsStem (Label.trap kind).text := by
  unfold trapCode? at h
  split at h
  · decide
  · decide
  · decide
  · cases h

theorem trapCode_injective {kind kind' : String} {code : Int} (h : trapCode? kind = some code)
    (h' : trapCode? kind' = some code) : kind = kind' := by
  unfold trapCode? at h h'
  split at h <;> split at h' <;> simp_all <;> omega

theorem text_trap_injective {kind kind' : String}
    (h : (Label.trap kind).text = (Label.trap kind').text) : kind = kind' := by
  have hlist := congrArg String.toList h
  simp only [Label.text, toString, String.toList_append, List.append_cancel_left_eq] at hlist
  exact String.toList_inj.1 (by simpa using hlist)

/-- Numbered labels with different numbers, between labels without digits, are written apart. -/
theorem nodup_texts {name : String} {labels : List Label} {kinds : List String}
    (hname : IsStem name) (htrap : ∀ kind ∈ kinds, IsStem (Label.trap kind).text)
    (hne : ∀ kind ∈ kinds, name ≠ (Label.trap kind).text)
    (hfresh : ∀ l ∈ labels, ∃ stem k, l = .fresh stem k ∧ IsStem stem)
    (hnodup : (labels.map Label.number).Nodup) (hkinds : kinds.Nodup) :
    ((.named name :: (labels ++ kinds.map Label.trap)).map Label.text).Nodup := by
  have hnumbers : (labels.map Label.text).map numberIn = labels.map Label.number := by
    rw [List.map_map]
    refine List.map_congr_left fun l hl => ?_
    obtain ⟨stem, k, rfl, hstem⟩ := hfresh l hl
    exact numberIn_fresh hstem k
  have htexts : (labels.map Label.text).Nodup := by
    rw [← hnumbers] at hnodup
    exact List.Pairwise.of_map numberIn (fun a b h hab => h (congrArg numberIn hab)) hnodup
  have htraps : ((kinds.map Label.trap).map Label.text).Nodup := by
    rw [List.map_map]
    exact List.Pairwise.map _ (fun _ _ h heq => h (text_trap_injective heq)) hkinds
  have hapart : ∀ text : String, IsStem text → ∀ l ∈ labels, text ≠ l.text := by
    intro text htext l hl
    obtain ⟨stem, k, rfl, hstem⟩ := hfresh l hl
    exact text_ne_fresh hstem htext k
  rw [List.map_cons, List.map_append]
  refine List.nodup_cons.2 ⟨fun hmem => ?_, List.nodup_append.2 ⟨htexts, htraps, ?_⟩⟩
  · rcases List.mem_append.1 hmem with hmem | hmem
    · obtain ⟨l, hl, heq⟩ := List.mem_map.1 hmem
      exact hapart name hname l hl heq.symm
    · rw [List.map_map] at hmem
      obtain ⟨kind, hkind, heq⟩ := List.mem_map.1 hmem
      exact hne kind hkind heq.symm
  · intro a ha b hb hab
    obtain ⟨l, hl, rfl⟩ := List.mem_map.1 ha
    rw [List.map_map] at hb
    obtain ⟨kind, hkind, rfl⟩ := List.mem_map.1 hb
    exact hapart _ (htrap kind hkind) l hl hab.symm

/-! ## Handlers -/

theorem trapCode_of_mem_trapKinds {op : Op} {kind : String} (h : kind ∈ op.trapKinds) :
    ∃ code, trapCode? kind = some code := by
  unfold Op.trapKinds at h
  split at h
  · exact ⟨2, by rw [List.mem_singleton.1 h]; rfl⟩
  · exact ⟨1, by rw [List.mem_singleton.1 h]; rfl⟩
  · exact ⟨3, by rw [List.mem_singleton.1 h]; rfl⟩
  · cases h

namespace Emitter

/-- Two operations for each kind. -/
theorem handlers_cons {kind : String} {kinds : List String} {code : Int}
    (h : trapCode? kind = some code) :
    (handlers (kind :: kinds)).1 = .label (.trap kind) :: .trap code :: (handlers kinds).1 := by
  simp only [handlers, h]

variable {kinds : List String} (hcodes : ∀ kind ∈ kinds, ∃ code, trapCode? kind = some code)

include hcodes

theorem placed_handlers {kind : String} (h : kind ∈ kinds) :
    ∃ i code, trapCode? kind = some code ∧
      Placed (handlers kinds).1 i [.label (.trap kind), .trap code] := by
  induction kinds with
  | nil => cases h
  | cons kind' kinds ih =>
    obtain ⟨code', hcode'⟩ := hcodes kind' List.mem_cons_self
    rw [handlers_cons hcode']
    rcases List.mem_cons.1 h with rfl | h
    · exact ⟨0, code', hcode', (handlers kinds).1, rfl⟩
    · obtain ⟨i, code, hcode, hplaced⟩ :=
        ih (fun k hk => hcodes k (List.mem_cons_of_mem kind' hk)) h
      exact ⟨i + 2, code, hcode, hplaced⟩

theorem mem_handlers {o : Op} (h : o ∈ (handlers kinds).1) :
    (∃ kind ∈ kinds, o = .label (.trap kind)) ∨
      ∃ kind code, trapCode? kind = some code ∧ o = .trap code := by
  induction kinds with
  | nil => cases h
  | cons kind kinds ih =>
    obtain ⟨code, hcode⟩ := hcodes kind List.mem_cons_self
    rw [handlers_cons hcode] at h
    rcases List.mem_cons.1 h with rfl | h
    · exact .inl ⟨kind, List.mem_cons_self, rfl⟩
    rcases List.mem_cons.1 h with rfl | h
    · exact .inr ⟨kind, code, hcode, rfl⟩
    · rcases ih (fun k hk => hcodes k (List.mem_cons_of_mem kind hk)) h with ⟨k, hk, rfl⟩ | h
      · exact .inl ⟨k, List.mem_cons_of_mem kind hk, rfl⟩
      · exact .inr h

theorem labelsOf_handlers :
    labelsOf ((handlers kinds).1.map (⟨·, []⟩)) = kinds.map Label.trap := by
  induction kinds with
  | nil => rfl
  | cons kind kinds ih =>
    obtain ⟨code, hcode⟩ := hcodes kind List.mem_cons_self
    rw [handlers_cons hcode, List.map_cons, List.map_cons, labelsOf_cons, labelsOf_cons,
      ih fun k hk => hcodes k (List.mem_cons_of_mem kind hk)]
    rfl

omit hcodes

theorem steps_emitHandlers (e : Emitter) :
    e.emitHandlers.2.steps = e.steps ++ (handlers e.traps).1.map (⟨·, []⟩) := rfl

theorem grows_foldl_addNew (kinds found : List String) : Grows found (kinds.foldl addNew found) := by
  induction kinds generalizing found with
  | nil => exact .refl found
  | cons kind kinds ih => exact (Grows.addNew found kind).trans (ih _)

theorem mem_foldl_addNew {kind : String} {kinds found : List String} :
    kind ∈ kinds.foldl addNew found ↔ kind ∈ found ∨ kind ∈ kinds := by
  induction kinds generalizing found with
  | nil => simp
  | cons kind' kinds ih =>
    rw [List.foldl_cons, ih, mem_addNew, List.mem_cons, or_assoc]

end Emitter

/-! ## Assembled programs -/

/-- The stack machine after it has entered a function. -/
def StackState.entered (slots : Nat) : StackState := ⟨[], none, none, List.replicate slots none⟩

/-- The operations that stand before the code of a function with a name. -/
def Op.entering (entry : String) (slots : Nat) : List Op :=
  [.textSection, .global entry, .prologue entry slots]

theorem Op.plain_entering {entry : String} {slots : Nat} :
    ∀ o ∈ Op.entering entry slots, o.Plain := by
  simp [Op.entering, Op.Plain]

/-- The operations that stand before the code of a program. -/
def Op.opening (slots : Nat) : List Op :=
  [.textSection, .global defaultEntry, .prologue defaultEntry slots]

/-- Behind the opening are inner code, the epilogue and the handlers. -/
def Op.BehindOpening (slots : Nat) (op : Op) : Prop :=
  op.Inner slots ∨ op = .epilogue ∨ ∃ kind code, trapCode? kind = some code ∧ op = .trap code

end Assembly

/-- The steps are a program for a target, complete with its handlers. -/
structure Assembled (target : Target) (p : Program) (steps : List Step) : Prop where
  opening : ∃ rest, steps = (Op.opening p.slots.length).map (⟨·, []⟩) ++ rest ∧
    ∀ step ∈ rest, step.op.BehindOpening p.slots.length
  formed : ∀ step ∈ steps, ∃ k, step = step.op.step target k
  distinct : ((labelsOf steps).map Label.text).Nodup
  /-- Every failure is one that is handled. -/
  handled : ∀ e, p.FailsWith e →
    ∃ kind code, e.trapKind? = some kind ∧ trapCode? kind = some code
  returns : ∀ v, p.Returns v → ∃ line, Ends (stackStep (steps.map Step.op))
    ⟨3, .entered p.slots.length⟩ (.stopped line (.returned v))
  fails : ∀ e, p.FailsWith e → ∀ kind code, e.trapKind? = some kind →
    trapCode? kind = some code → ∃ line, (steps.map Step.op)[line]? = some (.label (.trap kind)) ∧
      Ends (stackStep (steps.map Step.op)) ⟨3, .entered p.slots.length⟩
        (.stopped (line + 1) (.aborted code))
  diverges : p.Diverges → Forever (stackStep (steps.map Step.op)) ⟨3, .entered p.slots.length⟩

namespace Program

/-- The body of a proper program compiles, to code that does what the program does. -/
theorem exists_body (target : Target) {p : Program} (h : p.Proper) :
    ∃ body n, Compile.body target p.isEmpty (statementsCode target p.slots p) 0 = .ok body n ∧
      Emitted target p.slots.length 0 n body ∧
      ∀ turns, Does p.slots (body.map Step.op) turns (execAll turns p 0) Results := by
  have hstatements : CompilesAfter target p.slots p :=
    statements_compile p.nodup_slots p (fits h)
  exact body_compiled hstatements 0

/-- The code of a program stands between its opening and its epilogue. -/
theorem code_eq {target : Target} (entry : String) {p : Program} {body : List Step} {n : Nat}
    (h : Compile.body target p.isEmpty (statementsCode target p.slots p) 0 = .ok body n) :
    p.code target entry 0 =
      .ok ((Op.entering entry p.slots.length).map (⟨·, []⟩) ++ body ++ [⟨.epilogue, []⟩]) n := by
  have hopening : Compile.ops target (Op.entering entry p.slots.length) 0 =
      .ok ((Op.entering entry p.slots.length).map (⟨·, []⟩)) 0 :=
    Compile.ops_plain Op.plain_entering
  have hepilogue : Compile.op target .epilogue n = .ok [⟨.epilogue, []⟩] n :=
    Compile.op_plain (o := .epilogue) trivial n
  show (Compile.ops target (Op.entering entry p.slots.length) >>= fun first => do
    let body ← Compile.body target p.isEmpty (statementsCode target p.slots p)
    let last ← Compile.op target .epilogue
    return first ++ body ++ last) 0 = _
  rw [bind_of_ok hopening, bind_of_ok h, bind_of_ok hepilogue]
  rfl

end Program

/-- The operations of a step set no more labels than its lines do. -/
theorem sublist_labelsOf (steps : List Step) :
    (((steps.map Step.op).map Op.line).filterMap Line.label?).Sublist (labelsOf steps) := by
  induction steps with
  | nil => exact .slnil
  | cons step steps ih =>
    rw [List.map_cons, List.map_cons, labelsOf_cons]
    obtain ⟨op, scratch⟩ := step
    cases op with
    | label l => exact ih.cons_cons l
    | _ => exact ih.trans (List.sublist_append_right _ _)

section Assembling

variable {target : Target} {p : Program} {body : List Step} {n : Nat}

/-- The kinds of failure that the code of a program may run into. -/
def kindsOf (body : List Step) : List String :=
  (body.flatMap fun step => step.op.trapKinds).foldl addNew []

/-- The steps of a function with a name: those that enter it, the body, the epilogue and the
handlers. -/
def listingOf (entry : String) (slots : Nat) (body : List Step) : List Step :=
  (Op.entering entry slots).map (⟨·, []⟩) ++ body ++ [⟨.epilogue, []⟩] ++
    (Emitter.handlers (kindsOf body)).1.map (⟨·, []⟩)

/-- The opening, the body, the epilogue and the handlers. -/
def wholeOf (slots : Nat) (body : List Step) : List Step :=
  (Op.opening slots).map (⟨·, []⟩) ++ body ++ [⟨.epilogue, []⟩] ++
    (Emitter.handlers (kindsOf body)).1.map (⟨·, []⟩)

theorem kindsOf_coded (body : List Step) :
    ∀ kind ∈ kindsOf body, ∃ code, trapCode? kind = some code := by
  intro kind hkind
  rcases Emitter.mem_foldl_addNew.1 hkind with h | h
  · cases h
  · obtain ⟨step, -, hmem⟩ := List.mem_flatMap.1 h
    exact trapCode_of_mem_trapKinds hmem

/-- Behind the code of a program, its handlers are emitted. -/
theorem emitProgram_eq (entry : String)
    (hbody : Compile.body target p.isEmpty (statementsCode target p.slots p) 0 = .ok body n) :
    ∃ e, Emitter.empty.emitProgram target entry p = .ok e ∧
      e.steps = listingOf entry p.slots.length body := by
  have hcode := Program.code_eq entry hbody
  refine ⟨_, by rw [Emitter.emitProgram, show Emitter.empty.labels = 0 from rfl, hcode], ?_⟩
  rw [Emitter.steps_emitHandlers]
  have hkinds : (((Op.entering entry p.slots.length).map (⟨·, []⟩) ++ body ++
      [⟨.epilogue, []⟩] : List Step).flatMap fun step => step.op.trapKinds).foldl addNew [] =
        kindsOf body := by
    simp [Op.entering, kindsOf, Op.trapKinds]
  simp only [Emitter.append, Emitter.empty, hkinds]
  rfl

theorem labelsOf_listingOf (entry : String) (slots : Nat) (body : List Step) :
    labelsOf (listingOf entry slots body) =
      .named entry :: (labelsOf body ++ (kindsOf body).map Label.trap) := by
  unfold listingOf
  rw [labelsOf_append, labelsOf_append, labelsOf_append,
    Emitter.labelsOf_handlers (kindsOf_coded body)]
  simp [Op.entering, Step.labels, labelsOf]

/-- The entry is not written like a handler. -/
theorem defaultEntry_ne_trap (kind : String) : defaultEntry ≠ (Label.trap kind).text := by
  intro heq
  have hlist := congrArg (fun text => text.toList.head?) heq
  simp [Label.text, toString, defaultEntry] at hlist

theorem distinct_wholeOf {slots n' : Nat} (h : Emitted target slots n n' body) :
    ((labelsOf (wholeOf slots body)).map Label.text).Nodup := by
  rw [show wholeOf slots body = listingOf defaultEntry slots body from rfl, labelsOf_listingOf]
  refine nodup_texts (by decide) ?_ (fun kind _ => defaultEntry_ne_trap kind) ?_ h.nodup
    ((Emitter.grows_foldl_addNew _ []).nodup .nil)
  · intro kind hkind
    obtain ⟨code, hcode⟩ := kindsOf_coded body kind hkind
    exact isStem_trap hcode
  · intro l hl
    obtain ⟨stem, k, rfl, hstem, -⟩ := h.fresh l hl
    exact ⟨stem, k, rfl, hstem⟩

theorem mem_listingOf (entry : String) {slots n' : Nat} (h : Emitted target slots n n' body) :
    ∃ rest, listingOf entry slots body = (Op.entering entry slots).map (⟨·, []⟩) ++ rest ∧
      ∀ step ∈ rest, (∃ k, step = step.op.step target k) ∧ step.op.BehindOpening slots := by
  refine ⟨body ++ ⟨.epilogue, []⟩ :: (Emitter.handlers (kindsOf body)).1.map (⟨·, []⟩), ?_, ?_⟩
  · simp [listingOf]
  intro step hstep
  rcases List.mem_append.1 hstep with hstep | hstep
  · exact ⟨h.formed step hstep, .inl (h.inner step hstep)⟩
  rcases List.mem_cons.1 hstep with rfl | hstep
  · exact ⟨⟨0, (step_of_plain (o := .epilogue) trivial 0).symm⟩, .inr (.inl rfl)⟩
  obtain ⟨o, ho, rfl⟩ := List.mem_map.1 hstep
  rcases Emitter.mem_handlers (kindsOf_coded body) ho with ⟨kind, -, rfl⟩ | ⟨kind, code, hcode, rfl⟩
  · exact ⟨⟨0, (step_of_plain (o := .label _) trivial 0).symm⟩, .inl trivial⟩
  · exact ⟨⟨0, (step_of_plain (o := .trap _) trivial 0).symm⟩, .inr (.inr ⟨kind, code, hcode, rfl⟩)⟩

theorem formed_listingOf (entry : String) {slots n' : Nat} (h : Emitted target slots n n' body) :
    ∀ step ∈ listingOf entry slots body, ∃ k, step = step.op.step target k := by
  obtain ⟨rest, hrest, hsteps⟩ := mem_listingOf entry h
  intro step hstep
  rw [hrest] at hstep
  rcases List.mem_append.1 hstep with hstep | hstep
  · obtain ⟨o, ho, rfl⟩ := List.mem_map.1 hstep
    exact ⟨0, (step_of_plain (Op.plain_entering o ho) 0).symm⟩
  · exact (hsteps step hstep).1

theorem map_op_wholeOf (slots : Nat) (body : List Step) : (wholeOf slots body).map Step.op =
    Op.opening slots ++ body.map Step.op ++ [.epilogue] ++
      (Emitter.handlers (kindsOf body)).1 := by
  simp [wholeOf, Function.comp_def]

theorem linked_wholeOf {slots n' : Nat} (h : Emitted target slots n n' body) :
    Linked ((wholeOf slots body).map Step.op) where
  distinct := ((sublist_labelsOf _).map Label.text).nodup (distinct_wholeOf h)
  handlers o ho kind hkind := by
    have hall := Placed.self ((wholeOf slots body).map Step.op)
    rw [map_op_wholeOf] at ho
    have hmem : kind ∈ kindsOf body := by
      refine Emitter.mem_foldl_addNew.2 (.inr ?_)
      rcases List.mem_append.1 ho with ho | ho
      · rcases List.mem_append.1 ho with ho | ho
        · rcases List.mem_append.1 ho with ho | ho
          · simp only [Op.opening, List.mem_cons, List.not_mem_nil, or_false] at ho
            rcases ho with rfl | rfl | rfl <;> cases hkind
          · obtain ⟨step, hstep, rfl⟩ := List.mem_map.1 ho
            exact List.mem_flatMap.2 ⟨step, hstep, hkind⟩
        · rw [List.mem_singleton.1 ho] at hkind
          cases hkind
      · rcases Emitter.mem_handlers (kindsOf_coded body) ho with ⟨_, -, rfl⟩ | ⟨_, _, -, rfl⟩ <;>
          cases hkind
    obtain ⟨i, code, hcode, hplaced⟩ := Emitter.placed_handlers (kindsOf_coded body) hmem
    have hbehind : Placed ((wholeOf slots body).map Step.op)
        (0 + (Op.opening slots ++ body.map Step.op ++ [Op.epilogue]).length + i)
        [.label (.trap kind), .trap code] := by
      rw [map_op_wholeOf] at hall ⊢
      exact hall.right.trans hplaced
    exact ⟨_, code, hbehind.head, hbehind.tail.head, hcode⟩

theorem slotsOf_nil (names : List String) : slotsOf names [] = List.replicate names.length none := by
  unfold slotsOf
  exact List.map_const' ..

/-- The stack machine does what the program does, and returns its value. -/
theorem follows_wholeOf (hlinked : Linked ((wholeOf p.slots.length body).map Step.op)) {turns : Nat}
    (hdoes : Does p.slots (body.map Step.op) turns (execAll turns p 0) Results) :
    Follows ((wholeOf p.slots.length body).map Step.op) p.slots turns (p.eval turns)
      ⟨3, .entered p.slots.length⟩ (3 + body.length)
      (fun v s => s.operands = [] ∧ s.result = some v) := by
  have hall := Placed.self ((wholeOf p.slots.length body).map Step.op)
  rw [map_op_wholeOf] at hall
  have hbody : Placed ((wholeOf p.slots.length body).map Step.op) 3 (body.map Step.op) := by
    rw [map_op_wholeOf]
    exact hall.left.left.right
  have hrun := hdoes _ 3 (.entered p.slots.length) hlinked hbody [] (slotsOf_nil p.slots).symm
  rwa [List.length_map] at hrun

theorem assembled_wholeOf (hemitted : Emitted target p.slots.length 0 n body)
    (hdoes : ∀ turns, Does p.slots (body.map Step.op) turns (execAll turns p 0) Results) :
    Assembled target p (wholeOf p.slots.length body) := by
  have hlinked := linked_wholeOf hemitted
  obtain ⟨rest, hrest, hsteps⟩ := mem_listingOf defaultEntry hemitted
  have hfollows := fun turns => follows_wholeOf hlinked (hdoes turns)
  have hfails : ∀ e, p.FailsWith e → Fails ((wholeOf p.slots.length body).map Step.op)
      ⟨3, .entered p.slots.length⟩ e := by
    rintro e ⟨turns, env, hrun⟩
    have h := hfollows turns
    rw [hrun] at h
    exact h
  refine ⟨⟨rest, hrest, fun step hstep => (hsteps step hstep).2⟩, formed_listingOf defaultEntry hemitted,
    distinct_wholeOf hemitted, ?_, ?_, ?_, ?_⟩
  · intro e he
    obtain ⟨kind, line, code, s, hkind, hcode, -⟩ := hfails e he
    exact ⟨kind, code, hkind, hcode⟩
  · rintro v ⟨turns, env, hrun⟩
    have h := hfollows turns
    rw [hrun] at h
    obtain ⟨s, hreaches, -, hoperands, hresult⟩ := h
    have hepilogue : ((wholeOf p.slots.length body).map Step.op)[3 + body.length]? =
        some .epilogue := by
      have hall := Placed.self ((wholeOf p.slots.length body).map Step.op)
      have hlength : 0 + (Op.opening p.slots.length ++ body.map Step.op).length = 3 + body.length := by
        simp [Op.opening]
        omega
      rw [map_op_wholeOf] at hall ⊢
      rw [← hlength]
      exact hall.left.right.head
    have hstop : Op.epilogue.exec s = .stop (.returned v) := by
      simp only [Op.exec, hoperands, hresult]
    exact ⟨_, hreaches.ends (.of_step (stackStep_stop hepilogue hstop))⟩
  · intro e he kind code hkind hcode
    obtain ⟨kind', line, code', s, hkind', hcode', hlabel, htrap, hreaches⟩ := hfails e he
    rw [hkind] at hkind'
    cases hkind'
    rw [hcode] at hcode'
    cases hcode'
    have hpast := hreaches.trans (reaches_op hlabel rfl)
    exact ⟨line, hlabel, hpast.ends (.of_step (stackStep_stop htrap rfl))⟩
  · intro hdiverges turns
    obtain ⟨env, hrun⟩ := hdiverges turns
    have h := hfollows turns
    rw [hrun] at h
    exact h

end Assembling

/-- What was read from a text is emitted as a program that stands on its own. -/
theorem Program.exists_assembled (target : Target) {source : String} {limit : Int} {p : Program}
    (h : Program.parse source limit = .ok p) : ∃ e,
      Emitter.empty.emitProgram target defaultEntry p = .ok e ∧ Assembled target p e.steps := by
  obtain ⟨body, n, hbody, hemitted, hdoes⟩ := exists_body target (parse_proper h)
  obtain ⟨e, he, hsteps⟩ := emitProgram_eq defaultEntry hbody
  refine ⟨e, he, ?_⟩
  rw [hsteps]
  exact assembled_wholeOf hemitted hdoes

theorem Program.compile_eq {target : Target} {entry : String} {p : Program} {e : Emitter}
    (h : Emitter.empty.emitProgram target entry p = .ok e) :
    p.compile target entry = .ok (e.output target) := by
  unfold Program.compile
  rw [h]
  rfl

end Imp32
