import Imp32.Proofs.Calls
import Imp32.Proofs.Findings
import Imp32.Proofs.Reading.Placed
import Imp32.Proofs.Spans.Tokens
import Imp32.Proofs.Variables

/-!
# Variables that are never assigned

The check warns of a variable once if the program reads it and never assigns it, at the first read
of the text, and it lists the variables that are assigned. Both are right for every run: only listed
variables are ever bound, so that a run which comes to read a variable that was warned of ends there
(`check_sound`).
-/

namespace Imp32

def Findings.warningsFor (f : Findings) (name : String) : List Diagnostic :=
  f.diagnostics.filter fun d => d.said = (Check.neverAssigned name .none).said

namespace Program

/-- The program reads the variable somewhere and assigns it nowhere. -/
def ReadsOnly (p : Program) (name : String) : Prop :=
  (∃ span, (name, span) ∈ p.reads) ∧ ∀ place, ¬Assigns p.parts name place

/-- The program reads the variable at the place, and elsewhere behind the place only. -/
structure ReadsFirst (p : Program) (name : String) (place : Span) : Prop where
  read : (name, place) ∈ p.reads
  first : ∀ other, (name, other) ∈ p.reads → other = place ∨ place.stop ≤ other.start

end Program

/-- What the findings say of variables holds of the text and of every run. -/
structure Findings.Sound (f : Findings) (p : Program) : Prop where
  /-- One warning, at the first read. -/
  warned : ∀ name, p.ReadsOnly name → ∃ place, p.ReadsFirst name place ∧
    f.warningsFor name = [Check.neverAssigned name place]
  silent : ∀ name, ¬p.ReadsOnly name → f.warningsFor name = []
  only : ∀ d ∈ f.diagnostics, d.code = "W301" → ∃ name, d ∈ f.warningsFor name
  /-- Whatever call returns, and however, the bound variables are listed. -/
  bound : ∀ turns, ∀ outcome ∈ p.history turns [], ∀ name ∈ outcome.env.keys, name ∈ f.targets.keys
  /-- Wherever a call begins, the bound variables are listed. -/
  begun : ∀ turns call env, Call.Reaches turns (.all p 0, []) (call, env) →
    ∀ name ∈ env.keys, name ∈ f.targets.keys
  unbound : ∀ name, f.warningsFor name ≠ [] → name ∉ f.targets.keys
  /-- A run that comes to read the variable of a warning ends there. -/
  halts : ∀ turns name span env, f.warningsFor name ≠ [] →
    Call.Reaches turns (.all p 0, []) (.expr (.var name span), env) →
      p.eval turns = .error (.error (.unboundVariable name (some span))) env

/-! ## Reads in the order of the text -/

def readToken (read : String × Span) : Token :=
  ⟨.ident read.1, read.2⟩

theorem Placed.Expression.reads_sublist {ts : List Token} {e : Expr}
    (h : Placed.Expression ts e) : (e.reads.map readToken).Sublist ts := by
  induction h with
  | value n span => exact List.nil_sublist _
  | var name span => exact List.Sublist.refl _
  | neg span _ ih => exact ih.cons _
  | binary op span _ _ iha ihb =>
    unfold Expr.reads
    split
    · exact (ihb.cons _).trans (List.sublist_append_right _ _)
    · rw [List.map_append]
      exact iha.append (ihb.cons _)
  | paren o c _ ih => exact (ih.cons _).trans (List.sublist_append_left _ _)

theorem Placed.Cut.reads_sublist {ts : List Token} {es : List Expr} (h : Placed.Cut ts es) :
    ((es.flatMap Expr.reads).map readToken).Sublist ts := by
  induction h with
  | nil ts => exact List.nil_sublist _
  | cons xs hwhole _ ih =>
    rw [List.flatMap_cons, List.map_append]
    exact (hwhole.placed.reads_sublist.append ih).trans (List.sublist_append_right _ _)

/-- The reads are listed in the order of the text. -/
theorem Program.reads_pairwise {ts : List Token} {p : Program} (h : Placed.Statements ts p)
    (ho : Ordered ts) : p.reads.Pairwise fun a b => a.2.stop ≤ b.2.start :=
  List.pairwise_map.1 (ho.sublist h.cut.reads_sublist).apart

/-- The read that is found first is the first of the text. -/
theorem Program.readsFirst_of_find? {ts : List Token} {p : Program} (h : Placed.Statements ts p)
    (ho : Ordered ts) {name : String} {read : String × Span}
    (hread : p.reads.find? (fun pair => pair.1 = name) = some read) :
    read.1 = name ∧ p.ReadsFirst name read.2 := by
  obtain ⟨hname, before, behind, hsplit, hbefore⟩ := List.find?_eq_some_iff_append.1 hread
  obtain rfl : read.1 = name := of_decide_eq_true hname
  refine ⟨rfl, List.mem_of_find?_eq_some hread, fun other hother => ?_⟩
  have hpairwise := Program.reads_pairwise h ho
  rw [hsplit] at hother hpairwise
  obtain hother | hother := List.mem_append.1 hother
  · exact absurd (hbefore _ hother) (by simp)
  · obtain hother | hother := List.mem_cons.1 hother
    · exact .inl (congrArg Prod.snd hother)
    · exact .inr ((List.pairwise_cons.1 (List.pairwise_append.1 hpairwise).2.1).1 _ hother)

/-! ## Warnings -/

/-- A warning tells which variable it is about. -/
theorem Check.said_neverAssigned {name other : String} {span span' : Span} :
    (neverAssigned name span).said = (neverAssigned other span').said ↔ name = other := by
  refine ⟨fun h => ?_, fun h => by rw [h]; rfl⟩
  have hmessage : "variable '" ++ name ++ "' is never assigned" =
      "variable '" ++ other ++ "' is never assigned" := (Prod.mk.inj (Prod.mk.inj h).2).2
  have hlist := congrArg String.toList hmessage
  simp only [String.toList_append, List.append_assoc] at hlist
  exact String.toList_inj.1 (List.append_cancel_right (List.append_cancel_left hlist))

section Warnings

variable {p : Program} {f : Findings}

theorem Program.mem_check_targets (hp : p.Proper) (hf : p.check = .ok f) (name : String) :
    name ∈ f.targets.keys ↔ ∃ place, Assigns p.parts name place :=
  Bindings.has_iff.symm.trans ((Program.check_targets hp hf).2 name)

/-- The end of a check warns of a variable at its place among the reads, unless it is among the
targets. -/
theorem Findings.warningsFor_finish (h : f.reads.keys.Nodup) (name : String) :
    f.finish.warningsFor name = f.warningsFor name ++ if name ∈ f.targets.keys then [] else
      (f.reads.get? name).toList.map (Check.neverAssigned name) := by
  have habout : (f.reads.filter fun pair => (Check.neverAssigned pair.1 pair.2).said =
      (Check.neverAssigned name .none).said) = (f.reads.get? name).toList.map (name, ·) := by
    simp only [Check.said_neverAssigned]
    exact Bindings.filter_eq_get? h name
  unfold finish warningsFor
  rw [List.filter_append, List.filter_map, Function.comp_def, List.filter_filter,
    List.filter_congr fun _ _ => Bool.and_comm _ _, ← List.filter_filter, habout]
  refine congrArg (List.filter _ f.diagnostics ++ ·) ?_
  by_cases hname : name ∈ f.targets.keys
  · rw [if_pos hname, List.filter_eq_nil_iff.2 (by simp [Bindings.has_iff.2 hname])]
    rfl
  · have hhas : f.targets.has name = false :=
      Bool.eq_false_iff.2 fun hhas => hname (Bindings.has_iff.1 hhas)
    rw [if_neg hname, List.filter_eq_self.2 (by simp [hhas]), List.map_map]
    rfl

/-- The warnings for a variable: at its first read, unless it is assigned. -/
theorem Program.warningsFor_eq (hp : p.Proper) (hf : p.check = .ok f) (name : String) :
    f.warningsFor name = if name ∈ f.targets.keys then [] else
      (p.reads.find? fun pair => pair.1 = name).toList.map fun read =>
        Check.neverAssigned name read.2 := by
  obtain rfl := Except.ok.inj
    ((Program.check_eq (hp.imp fun _ he => he.wellFormed)).symm.trans hf)
  have hloops : (Findings.noting ⟨[], [], []⟩ p.reads p.targets p.unconditional).warningsFor name =
      [] := by
    refine List.filter_eq_nil_iff.2 fun d hd => ?_
    obtain ⟨span, -, rfl⟩ := List.mem_map.1 hd
    simp [Diagnostic.said, Check.noCondition, Check.neverAssigned, Check.warning]
  have hkeys : (Bindings.setNewAll [] p.reads).keys.Nodup :=
    Bindings.nodup_keys_setNewAll (b := []) List.nodup_nil p.reads
  rw [Findings.warningsFor_finish hkeys, hloops, List.nil_append]
  refine ite_congr rfl (fun _ => rfl) fun _ => ?_
  show (Bindings.get? (Bindings.setNewAll [] p.reads) name).toList.map _ = _
  rw [Bindings.get?_setNewAll]
  cases p.reads.find? fun pair => pair.1 = name <;> rfl

/-- A warning with this code is for some variable. -/
theorem Program.exists_warningFor (hp : p.Proper) (hf : p.check = .ok f) {d : Diagnostic}
    (hd : d ∈ f.diagnostics) (hcode : d.code = "W301") : ∃ name, d ∈ f.warningsFor name := by
  obtain rfl := Except.ok.inj
    ((Program.check_eq (hp.imp fun _ he => he.wellFormed)).symm.trans hf)
  obtain hloop | hmissing := List.mem_append.1 hd
  · obtain ⟨span, -, rfl⟩ := List.mem_map.1 hloop
    simp [Check.noCondition, Check.warning] at hcode
  · obtain ⟨pair, -, rfl⟩ := List.mem_map.1 hmissing
    exact ⟨pair.1, List.mem_filter.2 ⟨hd, decide_eq_true (Check.said_neverAssigned.2 rfl)⟩⟩

end Warnings

/-! ## Runs -/

/-- Variables are bound that these names allow, and any value and halt is allowed. -/
def Guarantee.binding (allowed : String → Prop) : Guarantee where
  value _ := True
  env env := ∀ name ∈ env.keys, allowed name
  halt _ := True

section Runs

variable {allowed : String → Prop}

theorem Guarantee.binding_open : (binding allowed).Open :=
  ⟨fun _ => trivial, fun _ => trivial⟩

/-- Binding a variable adds its name and no other. -/
theorem Bindings.mem_keys_set {α : Type} {b : Bindings α} {name other : String} {a : α} :
    other ∈ (b.set name a).keys ↔ name = other ∨ other ∈ b.keys := by
  rw [← has_iff, ← has_iff, has, has, get?_set]
  split
  · simp [*]
  · simp [*]

/-- Assignments bind only the names that they assign. -/
theorem Guarantee.binding_keptBy {found : List Expr}
    (hfound : ∀ name place, Assigns found name place → allowed name) :
    (binding allowed).KeptBy found := by
  intro name place hplace env v henv other hother
  obtain rfl | hold := Bindings.mem_keys_set.1 hother
  · exact hfound name place hplace
  · exact henv other hold

variable {p : Program} {turns : Nat}

theorem Program.each_meets_binding
    (h : ∀ name place, Assigns p.parts name place → allowed name) :
    p.Each (Expr.Meets (.binding allowed)) :=
  (Program.each_parts (List.Subset.refl _)).imp fun _ =>
    Guarantee.binding_open.meets (Guarantee.binding_keptBy h)

/-- Whatever call of a run returns, only variables are bound that the program assigns. -/
theorem Program.history_binds (h : ∀ name place, Assigns p.parts name place → allowed name) :
    ∀ outcome ∈ p.history turns [], ∀ name ∈ outcome.env.keys, allowed name := by
  intro outcome houtcome
  have hkeeps := (keepsAll (G := .binding allowed) Guarantee.binding_open.sound turns
    (Program.each_meets_binding h) 0 trivial).own [] nofun
  exact (hkeeps.2 outcome houtcome).env

/-- Wherever a call of a run begins, only variables are bound that the program assigns. -/
theorem Program.reached_binds (h : ∀ name place, Assigns p.parts name place → allowed name)
    {call : Call} {env : Env} (hcall : Call.Reaches turns (.all p 0, []) (call, env)) :
    ∀ name ∈ env.keys, allowed name :=
  (hcall.keeps (G := .binding allowed) Guarantee.binding_open.sound
    ⟨Program.each_meets_binding h, trivial⟩ nofun).2

/-- A run that comes to read a variable which is not bound ends there. -/
theorem Program.eval_of_reaches_unbound {name : String} {span : Span} {env : Env}
    (hcall : Call.Reaches turns (.all p 0, []) (.expr (.var name span), env))
    (hname : name ∉ env.keys) :
    p.eval turns = .error (.error (.unboundVariable name (some span))) env := by
  refine hcall.halts ?_
  show (Expr.var name span).eval env = _
  have hget : env.get? name = none :=
    Option.not_isSome_iff_eq_none.1 fun hsome => hname (Bindings.has_iff.1 hsome)
  rw [Expr.eval_var, hget]

end Runs

/-- What the check says of the variables of a program that was read holds of its text and of all
its runs. -/
theorem check_sound {source : String} {limit : Int} {p : Program}
    (h : Program.parse source limit = .ok p) : ∃ f, p.check = .ok f ∧ f.Sound p := by
  obtain ⟨ts, hts, hread⟩ := Program.parse_eq_ok.1 h
  have hp := parse_proper h
  obtain ⟨f, hf⟩ := Program.check_ok hp
  have hassigned := Program.mem_check_targets hp hf
  have hallowed : ∀ name place, Assigns p.parts name place → name ∈ f.targets.keys :=
    fun name place hplace => (hassigned name).2 ⟨place, hplace⟩
  have hunbound : ∀ name, f.warningsFor name ≠ [] → name ∉ f.targets.keys := by
    intro name hwarned hname
    rw [Program.warningsFor_eq hp hf, if_pos hname] at hwarned
    exact hwarned rfl
  refine ⟨f, hf, ?_, ?_, fun _ => Program.exists_warningFor hp hf,
    fun turns => Program.history_binds hallowed,
    fun turns call env => Program.reached_binds hallowed, hunbound, ?_⟩
  · rintro name ⟨⟨span, hspan⟩, hnever⟩
    have hfound : (p.reads.find? fun pair => pair.1 = name).isSome :=
      List.find?_isSome.2 ⟨(name, span), hspan, decide_eq_true rfl⟩
    obtain ⟨read, hfirst⟩ := Option.isSome_iff_exists.1 hfound
    obtain ⟨rfl, hreads⟩ := Program.readsFirst_of_find? (ofTokens_placed hread)
      (tokens_ordered hts) hfirst
    refine ⟨read.2, hreads, ?_⟩
    rw [Program.warningsFor_eq hp hf, if_neg fun hname => ?_, hfirst]
    · rfl
    · obtain ⟨place, hplace⟩ := (hassigned _).1 hname
      exact hnever place hplace
  · intro name hname
    rw [Program.warningsFor_eq hp hf]
    split
    next => rfl
    next hnever =>
      have hunread : p.reads.find? (fun pair => pair.1 = name) = none := by
        refine List.find?_eq_none.2 fun pair hpair heq => hname ⟨⟨pair.2, ?_⟩, fun place hplace =>
          hnever ((hassigned name).2 ⟨place, hplace⟩)⟩
        exact of_decide_eq_true heq ▸ hpair
      rw [hunread]
      rfl
  · intro turns name span env hwarned hcall
    exact Program.eval_of_reaches_unbound hcall fun hbound =>
      hunbound name hwarned (Program.reached_binds hallowed hcall name hbound)

/-- A program that reads `z` twice and never assigns it. -/
theorem check_sound_twice : ∃ p f, Program.parse "y = 1; z + x; x = z;" 9 = .ok p ∧
    p.check = .ok f ∧ f.Sound p ∧ f.diagnostics = [Check.neverAssigned "z" ⟨7, 8⟩] ∧
    f.targets = [("y", ⟨0, 1⟩), ("x", ⟨14, 15⟩)] := by
  have hread : ((Program.parse "y = 1; z + x; x = z;" 9).toOption.bind fun p =>
      p.check.toOption.map fun f => (f.diagnostics, f.targets)) =
        some ([Check.neverAssigned "z" ⟨7, 8⟩], [("y", ⟨0, 1⟩), ("x", ⟨14, 15⟩)]) := by
    decide +kernel
  cases h : Program.parse "y = 1; z + x; x = z;" 9 with
  | error e =>
    rw [h] at hread
    cases hread
  | ok p =>
    obtain ⟨f, hf, hsound⟩ := check_sound h
    rw [h] at hread
    change p.check.toOption.map _ = _ at hread
    rw [hf] at hread
    obtain ⟨hdiagnostics, htargets⟩ := Prod.mk.inj (Option.some.inj hread)
    exact ⟨p, f, rfl, hf, hsound, hdiagnostics, htargets⟩

end Imp32
